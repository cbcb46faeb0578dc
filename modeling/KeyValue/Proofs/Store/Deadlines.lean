import KeyValue.Proofs.Keyspace.WellFormed
import KeyValue.Proofs.Store.Call

namespace KeyValue

-- Every key with a deadline has a value of one kind, and of one kind only.
def Keyspace.DeadlinesValued (keyspace : Keyspace) : Prop :=
  ∀ key, keyspace.deadlines.contains key = true → ∃! kind, keyspace.data.holds kind key = true

namespace Cell

-- There is no deadline without a value. There may be values of several kinds.
def Tidy (cell : Cell) : Prop := cell.kind? = none → cell.deadline = none

variable {cell : Cell} {now : Nat}

theorem tidy_vacant : vacant.Tidy := fun _ => rfl

theorem tidy_of_deadline_eq_none (h : cell.deadline = none) : cell.Tidy := fun _ => h

theorem Tidy.evict (h : cell.Tidy) (now : Nat) : (cell.evict now).Tidy :=
  evict_induction Tidy tidy_vacant h now

theorem isSome_kind?_evict (now : Nat) (cell : Cell) :
    (cell.evict now).kind?.isSome = (cell.kind?.isSome && !cell.isDue now) := by
  unfold evict
  cases cell.isDue now with
  | true => exact (Bool.and_false _).symm
  | false => exact (Bool.and_true _).symm

theorem kind?_evict_of_none (h : cell.kind? = none) (now : Nat) :
    (cell.evict now).kind? = none :=
  evict_induction (fun cell => cell.kind? = none) rfl h now

theorem evict_of_not_due (h : cell.isDue now = false) : cell.evict now = cell := by
  simp [evict, h]

theorem deadline_evict_of_none (h : cell.deadline = none) (now : Nat) :
    (cell.evict now).deadline = none :=
  evict_induction (fun cell => cell.deadline = none) rfl h now

theorem Change.tidy {create : Prop} {cell' : Cell} (h : Change create cell cell')
    (hcell : cell.Tidy) : cell'.Tidy := by
  cases h with
  | kept => exact hcell
  | gone => exact tidy_vacant
  | stored hvalue _ _ => exact fun hkind => absurd (Slots.kind?_eq_none_iff.mp hkind) hvalue

theorem kind?_keepOnly {kind : Kind} (h : cell.kind? = some kind) :
    (cell.keepOnly kind).kind? = some kind := by
  have hvalue := Slots.holds_of_kind? h
  cases kind with
  | string => exact if_pos hvalue
  | list => exact if_pos hvalue
  | hash => exact if_pos hvalue

@[simp] theorem deadline_keepOnly (kind : Kind) (cell : Cell) :
    (cell.keepOnly kind).deadline = cell.deadline := by
  cases kind <;> rfl

@[simp] theorem deadline_without (kind : Kind) (cell : Cell) :
    (cell.without kind).deadline = none := by
  cases kind <;> rfl

theorem holds_without (kind other : Kind) (cell : Cell) :
    (cell.without kind).holds other = (cell.holds other && other ≠ kind) := by
  cases kind <;> cases other <;> simp [without, Slots.holds]

-- Where there was one value, nothing remains when it is moved away.
theorem kind?_without {kind : Kind} (h : ∃! kind, cell.holds kind = true)
    (hkind : cell.kind? = some kind) : (cell.without kind).kind? = none := by
  refine Slots.kind?_eq_none_iff_holds.mpr fun other => ?_
  rw [holds_without]
  cases hother : cell.holds other with
  | false => rfl
  | true => simp [h.unique hother (Slots.holds_of_kind? hkind)]

end Cell

namespace Keyspace

variable {keyspace : Keyspace}

theorem DeadlinesValued.existsUnique (h : keyspace.DeadlinesValued) {key : Bytes}
    (hdeadline : (keyspace.cell key).deadline ≠ none) :
    ∃! kind, (keyspace.cell key).holds kind = true := by
  have hvalued := h key (Option.isSome_iff_ne_none.mpr hdeadline)
  simp only [Namespaces.holds_eq_slots] at hvalued
  exact hvalued

theorem DeadlinesValued.tidy (h : keyspace.DeadlinesValued) (key : Bytes) :
    (keyspace.cell key).Tidy := by
  intro hkind
  by_contra hdeadline
  obtain ⟨kind, hholds, _⟩ := h.existsUnique hdeadline
  simp [Slots.kind?_eq_none_iff_holds.mp hkind kind] at hholds

end Keyspace

namespace Store

-- A key is live if it has a value and, if it has a deadline as well, that is still to come.
def isLive (now : Nat) (key : Bytes) (store : Store) : Bool :=
  (store.keyspace.kind? key).isSome && !store.keyspace.isDue now key

-- The deadline of a live key. Other keys have none.
def deadlineOf (now : Nat) (key : Bytes) (store : Store) : Option Nat :=
  if store.isLive now key then store.keyspace.deadlines.get? key else none

namespace Call

-- The deadline that a key has after a call that succeeds, if it is live then.
def deadlineAfter (now : Nat) (store : Store) (key : Bytes) : Call → Option Nat
  | .operation (.set other _) => if other = key then none else store.deadlineOf now key
  | .operation (.expire other seconds) =>
      if other = key then some (now + Clock.seconds seconds.toInt.toNat)
      else store.deadlineOf now key
  | .operation (.rename old new) =>
      if old ≠ new ∧ new = key then store.deadlineOf now old else store.deadlineOf now key
  | .restore _ => none
  | _ => store.deadlineOf now key

-- The calls that give a key a deadline, if they succeed.
def Grants (now : Nat) (store : Store) (key : Bytes) : Call → Prop
  | .operation (.expire other seconds) => other = key ∧ 0 < seconds.toInt
  | .operation (.rename old new) =>
      old ≠ new ∧ new = key ∧ store.deadlineOf now old ≠ none
  | _ => False

end Call

variable {store : Store} {now later : Nat} {key : Bytes}

theorem isLive_eq_view : store.isLive now key = (store.view now key).kind?.isSome :=
  (Cell.isSome_kind?_evict now (store.keyspace.cell key)).symm

theorem isLive_eq_false_iff : store.isLive now key = false ↔ (store.view now key).kind? = none := by
  rw [isLive_eq_view, Option.isSome_eq_false_iff, Option.isNone_iff_eq_none]

theorem deadlineOf_eq_view (h : (store.keyspace.cell key).Tidy) :
    store.deadlineOf now key = (store.view now key).deadline := by
  unfold deadlineOf
  cases hlive : store.isLive now key with
  | false => exact (h.evict now (isLive_eq_false_iff.mp hlive)).symm
  | true =>
      have hdue : (store.keyspace.cell key).isDue now = false := by
        rw [← Keyspace.isDue_eq_cell]
        simpa using (Bool.and_eq_true_iff.mp hlive).2
      rw [view, Cell.evict_of_not_due hdue]
      rfl

theorem isLive_iff_cell :
    store.isLive now key = true ↔
      (store.keyspace.cell key).kind? ≠ none ∧ (store.keyspace.cell key).isDue now = false := by
  rw [isLive, Bool.and_eq_true, Option.isSome_iff_ne_none, Bool.not_eq_true',
    Keyspace.isDue_eq_cell, Keyspace.kind?_eq_cell]

theorem deadlineAfter_of_plain {call : Call} (h : call.Plain key) :
    call.deadlineAfter now store key = store.deadlineOf now key := by
  cases call with
  | operation op =>
      cases op with
      | set other value => exact if_neg h
      | expire other seconds => exact if_neg h
      | rename old new =>
          refine if_neg fun hmoved => ?_
          rcases h with hsame | ⟨_, hnew⟩
          · exact hmoved.1 hsame
          · exact hnew hmoved.2
      | _ => rfl
  | restore data => cases h
  | _ => rfl

theorem deadline?_eq_some {seconds : Int64} {deadline : Nat}
    (h : deadline? now seconds = some deadline) :
    deadline = now + Clock.seconds seconds.toInt.toNat := by
  unfold deadline? at h
  split at h
  · rename_i hnegative
    rw [Int.toNat_of_nonpos (Int.le_of_lt hnegative), ← Option.some.inj h]
    rfl
  · unfold Clock.after? at h
    split at h
    · exact (Option.some.inj h).symm
    · cases h

theorem deadline?_le_iff {seconds : Int64} {deadline : Nat}
    (h : deadline? now seconds = some deadline) : deadline ≤ now ↔ seconds.toInt ≤ 0 := by
  rw [deadline?_eq_some h]
  simp only [Clock.seconds]
  omega

theorem deadline_eq_deadlineAfter {call : Call} (h : store.keyspace.DeadlinesValued)
    (hok : call.Succeeds now store) (hlive : (call.perform now store).isLive now key = true) :
    (call.perform now store).keyspace.deadlines.get? key = call.deadlineAfter now store key := by
  obtain ⟨hkind, hdue⟩ := isLive_iff_cell.mp hlive
  have houtcome := Call.outcome hok key
  change ((call.perform now store).keyspace.cell key).deadline = _
  generalize (call.perform now store).keyspace.cell key = cell at hkind hdue houtcome
  -- A plain call leaves the deadline that the key is found with.
  have plain (hplain : call.Plain key) (hsame : cell.deadline = (store.view now key).deadline) :
      cell.deadline = call.deadlineAfter now store key := by
    rw [deadlineAfter_of_plain hplain, deadlineOf_eq_view (h.tidy key), hsame]
  cases houtcome with
  | unseen hplain => exact plain hplain (by rw [view, Cell.evict_of_not_due hdue])
  | changed hplain hchange =>
      cases hchange with
      | kept => exact plain hplain rfl
      | gone => exact absurd rfl hkind
      | stored _ _ _ => exact plain hplain rfl
  | set value => exact (if_pos rfl).symm
  | expired hdeadline _ =>
      rw [Call.deadlineAfter, if_pos rfl, deadline?_eq_some hdeadline]
  | renamedTo hne _ =>
      rw [Call.deadlineAfter, if_pos ⟨hne, rfl⟩, deadlineOf_eq_view (h.tidy _),
        Cell.deadline_keepOnly]
  | @renamedFrom new kind hne hfound =>
      rw [Call.deadlineAfter, if_neg fun hmoved => hmoved.1 hmoved.2.symm,
        deadlineOf_eq_view (h.tidy key), Cell.deadline_without]
      -- If the old key had a deadline then it had one value, and is not live any more.
      by_contra hdeadline
      rcases (store.keyspace.cell key).evict_cases now with hgone | hsame
      · exact hdeadline (congrArg Cell.deadline hgone).symm
      · rw [view, hsame] at hdeadline hfound hkind
        exact hkind (Cell.kind?_without (h.existsUnique (Ne.symm hdeadline)) hfound)
  | restored data => rfl

-- A call that fails looks at a key, or does not even do that.
theorem view_of_failure {call : Call} (h : ¬call.Succeeds now store) :
    (call.perform now store).view now key = store.view now key := by
  unfold view
  rcases Call.cell_of_failure h key with hcell | hcell
  · rw [hcell]
  · rw [hcell, view, Cell.evict_evict _ (Nat.le_refl now)]

theorem not_live_mono (h : store.isLive now key = false) (hle : now ≤ later) :
    store.isLive later key = false := by
  rw [isLive_eq_false_iff] at h ⊢
  rw [view, ← Cell.evict_evict _ hle]
  exact Cell.kind?_evict_of_none h later

theorem not_live_or_creates {call : Call} (h : store.isLive now key = false) :
    (call.perform now store).isLive now key = false ∨
      (call.Succeeds now store ∧ call.Creates key) := by
  rw [isLive_eq_false_iff] at h ⊢
  by_cases hok : call.Succeeds now store
  · have houtcome := Call.outcome hok key
    unfold view at h ⊢
    generalize (call.perform now store).keyspace.cell key = cell at houtcome
    cases houtcome with
    | unseen _ => exact .inl h
    | changed _ hchange =>
        cases hchange with
        | kept => exact .inl (Cell.kind?_evict_of_none h now)
        | gone => exact .inl (Cell.kind?_evict_of_none rfl now)
        | stored _ hcreate _ => exact .inr ⟨hok, hcreate h⟩
    | set value => exact .inr ⟨hok, rfl⟩
    | expired _ hkind => exact absurd h hkind
    | renamedTo hne _ => exact .inr ⟨hok, hne, rfl⟩
    | renamedFrom _ hfound => cases hfound.symm.trans h
    | restored data =>
        by_cases hdata : data.kind? key = none
        · refine .inl (Cell.kind?_evict_of_none ?_ now)
          exact hdata
        · exact .inr ⟨hok, hdata⟩
  · rw [view_of_failure hok]
    exact .inl h

theorem tidy_perform {call : Call} (h : ∀ key, (store.keyspace.cell key).Tidy) (key : Bytes) :
    ((call.perform now store).keyspace.cell key).Tidy := by
  have hview (key : Bytes) : (store.view now key).Tidy := (h key).evict now
  by_cases hok : call.Succeeds now store
  · have houtcome := Call.outcome hok key
    generalize (call.perform now store).keyspace.cell key = cell at houtcome
    cases houtcome with
    | unseen _ => exact h key
    | changed _ hchange => exact hchange.tidy (hview key)
    | set value => exact Cell.tidy_of_deadline_eq_none rfl
    | expired _ hkind => exact fun hnone => absurd hnone hkind
    | renamedTo _ hfound =>
        exact fun hnone => by cases (Cell.kind?_keepOnly hfound).symm.trans hnone
    | renamedFrom _ _ => exact Cell.tidy_of_deadline_eq_none (Cell.deadline_without _ _)
    | restored data => exact Cell.tidy_of_deadline_eq_none rfl
  · rcases Call.cell_of_failure hok key with hcell | hcell
    · exact hcell ▸ h key
    · exact hcell ▸ hview key

theorem tidy_performAll (h : ∀ key, (store.keyspace.cell key).Tidy) (calls : List (Nat × Call))
    (key : Bytes) : ((performAll calls store).keyspace.cell key).Tidy :=
  performAll_invariant (fun store => ∀ key, (store.keyspace.cell key).Tidy)
    (fun _ _ _ h => tidy_perform h) h key

-- The key has no deadline, and there is none that a value to come could find in its place.
structure Undated (now : Nat) (key : Bytes) (store : Store) : Prop where
  tidy : ∀ key, (store.keyspace.cell key).Tidy
  deadline : store.deadlineOf now key = none

theorem Undated.perform {call : Call} (h : store.Undated now key) :
    (call.perform now store).Undated now key ∨
      (call.Succeeds now store ∧ call.Grants now store key) := by
  have hnone := h.deadline
  rw [deadlineOf_eq_view (h.tidy key)] at hnone
  suffices hview : ((call.perform now store).view now key).deadline = none ∨
      (call.Succeeds now store ∧ call.Grants now store key) by
    refine hview.imp_left fun hafter => ⟨tidy_perform h.tidy, ?_⟩
    rw [deadlineOf_eq_view (tidy_perform h.tidy key), hafter]
  by_cases hok : call.Succeeds now store
  · have houtcome := Call.outcome hok key
    unfold view at hnone ⊢
    generalize (call.perform now store).keyspace.cell key = cell at houtcome
    cases houtcome with
    | unseen _ => exact .inl hnone
    | changed _ hchange =>
        cases hchange with
        | kept => exact .inl (Cell.deadline_evict_of_none hnone now)
        | gone => exact .inl (Cell.deadline_evict_of_none rfl now)
        | stored _ _ _ =>
            refine .inl (Cell.deadline_evict_of_none ?_ now)
            exact hnone
    | set value => exact .inl (Cell.deadline_evict_of_none rfl now)
    | @expired seconds deadline hdeadline _ =>
        by_cases hpositive : 0 < seconds.toInt
        · exact .inr ⟨hok, rfl, hpositive⟩
        · -- The deadline is over as soon as it is set.
          have hover : deadline ≤ now := (deadline?_le_iff hdeadline).mpr (Int.not_lt.mp hpositive)
          rw [Cell.evict, if_pos (by simpa [Cell.isDue] using hover)]
          exact .inl rfl
    | @renamedTo old kind hne _ =>
        by_cases hgiven : store.deadlineOf now old = none
        · refine .inl (Cell.deadline_evict_of_none ?_ now)
          rw [Cell.deadline_keepOnly, ← deadlineOf_eq_view (h.tidy old), hgiven]
        · exact .inr ⟨hok, hne, rfl, hgiven⟩
    | renamedFrom _ _ => exact .inl (Cell.deadline_evict_of_none (Cell.deadline_without _ _) now)
    | restored data => exact .inl (Cell.deadline_evict_of_none rfl now)
  · rw [view_of_failure hok]
    exact .inl hnone

theorem Undated.mono (h : store.Undated now key) (hle : now ≤ later) :
    store.Undated later key := by
  refine ⟨h.tidy, ?_⟩
  have hnone := h.deadline
  rw [deadlineOf_eq_view (h.tidy key)] at hnone ⊢
  rw [view, ← Cell.evict_evict _ hle]
  exact Cell.deadline_evict_of_none hnone later

theorem isLive_of_expire {seconds : Int64}
    (hok : (Call.operation (.expire key seconds)).Succeeds now store) :
    ((Call.operation (.expire key seconds)).perform now store).isLive now key =
      decide (0 < seconds.toInt) := by
  have houtcome := Call.outcome hok key
  rw [isLive_eq_view, view]
  generalize ((Call.operation (.expire key seconds)).perform now store).keyspace.cell key = cell
    at houtcome
  cases houtcome with
  | unseen hplain => exact absurd rfl hplain
  | changed hplain _ => exact absurd rfl hplain
  | @expired _ deadline hdeadline hkind =>
      have hover : deadline ≤ now ↔ ¬0 < seconds.toInt :=
        (deadline?_le_iff hdeadline).trans Int.not_lt.symm
      have hdue : ({ store.view now key with deadline := some deadline } : Cell).isDue now =
          !decide (0 < seconds.toInt) := by
        rw [← decide_not]
        exact decide_eq_decide.mpr hover
      have hvalue := Option.isSome_iff_ne_none.mpr hkind
      rw [Cell.isSome_kind?_evict, hdue, hvalue, Bool.true_and, Bool.not_not]

theorem absent_or_created {calls : List (Nat × Call)} {finish : Nat}
    (h : store.isLive now key = false)
    (hordered : (now :: (calls.map Prod.fst ++ [finish])).Pairwise (· ≤ ·)) :
    (performAll calls store).isLive finish key = false ∨
      ∃ before call after, calls = before ++ call :: after ∧
        call.2.Succeeds call.1 (performAll before store) ∧ call.2.Creates key :=
  holds_or_exists_call (fun now store => store.isLive now key = false)
    (fun now store call => call.Succeeds now store ∧ call.Creates key)
    (fun _ _ _ => not_live_mono) (fun _ _ _ => not_live_or_creates) h hordered

theorem undated_or_granted {calls : List (Nat × Call)} {finish : Nat} (h : store.Undated now key)
    (hordered : (now :: (calls.map Prod.fst ++ [finish])).Pairwise (· ≤ ·)) :
    (performAll calls store).Undated finish key ∨
      ∃ before call after, calls = before ++ call :: after ∧
        call.2.Succeeds call.1 (performAll before store) ∧
        call.2.Grants call.1 (performAll before store) key :=
  holds_or_exists_call (fun now store => store.Undated now key)
    (fun now store call => call.Succeeds now store ∧ call.Grants now store key)
    (fun _ _ _ h hle => h.mono hle) (fun _ _ _ h => h.perform) h hordered

-- Let every key with a deadline have one value. Then a call that succeeds leaves those keys that
-- are live after it with the deadlines that it is meant to leave. A key that is made to expire at
-- once is not live again before a call that succeeds creates it. And whether it is gone or never
-- had one, a key without a deadline has none later in a run unless a call has granted it one.
theorem deadline_life_cycle {store : Store} (h : store.keyspace.DeadlinesValued) :
    (∀ now (call : Call) key, call.Succeeds now store →
      (call.perform now store).isLive now key = true →
      (call.perform now store).keyspace.deadlines.get? key =
        call.deadlineAfter now store key) ∧
    (∀ now key seconds, (Call.operation (.expire key seconds)).Succeeds now store →
      let expired := (Call.operation (.expire key seconds)).perform now store
      (0 < seconds.toInt → expired.isLive now key = true) ∧
      (seconds.toInt ≤ 0 → ∀ (calls : List (Nat × Call)) finish,
        (now :: (calls.map Prod.fst ++ [finish])).Pairwise (· ≤ ·) →
        (∀ before call after, calls = before ++ call :: after →
          call.2.Succeeds call.1 (performAll before expired) → ¬call.2.Creates key) →
        (performAll calls expired).isLive finish key = false)) ∧
    ∀ (earlier later : List (Nat × Call)) middle finish key,
      (middle :: (later.map Prod.fst ++ [finish])).Pairwise (· ≤ ·) →
      (performAll earlier store).deadlineOf middle key = none →
      (performAll (earlier ++ later) store).deadlineOf finish key ≠ none →
      ∃ before call after, later = before ++ call :: after ∧
        call.2.Succeeds call.1 (performAll (earlier ++ before) store) ∧
        call.2.Grants call.1 (performAll (earlier ++ before) store) key := by
  refine ⟨fun now call key hok hlive => deadline_eq_deadlineAfter h hok hlive,
    fun now key seconds hok => ⟨fun hpositive => ?_, ?_⟩, ?_⟩
  · rw [isLive_of_expire hok]
    exact decide_eq_true hpositive
  · intro hover calls finish hordered hcreates
    have hgone := (isLive_of_expire hok).trans (decide_eq_false (Int.not_lt.mpr hover))
    rcases absent_or_created hgone hordered with hend | ⟨before, call, after, hcalls, hok, hcall⟩
    · exact hend
    · exact absurd hcall (hcreates before call after hcalls hok)
  · intro earlier later middle finish key hordered hnone hsome
    rw [performAll_append] at hsome
    simp only [performAll_append]
    rcases undated_or_granted ⟨tidy_performAll h.tidy earlier, hnone⟩ hordered with hend | hgranted
    · exact absurd hend.deadline hsome
    · exact hgranted

-- One key with a value, and with a deadline after nine seconds.
def sessionStore : Store :=
  ⟨⟨⟨ByteMap.empty.insert [115] [97], .empty, .empty⟩,
    ByteMap.empty.insert [115] (Clock.seconds 9)⟩, 0⟩

theorem sessionStore_deadlinesValued : sessionStore.keyspace.DeadlinesValued := by
  intro key hdeadline
  have hkey : key = [115] := by
    by_contra hne
    simp [sessionStore, ByteMap.contains, hne] at hdeadline
  subst hkey
  exact ⟨.string, by decide, fun kind => by cases kind <;> decide⟩

-- The key is renamed, is made to expire at once, and is deleted, set again and given the
-- deadline of another key, each time from the same start. What is tried after it has expired
-- does not bring it back: there is nothing to rename, and there are no pairs to set.
theorem sessionStore_life_cycle :
    sessionStore.keyspace.DeadlinesValued ∧
    ((Call.operation (.rename [115] [116])).perform 1 sessionStore).keyspace.deadlines.get? [116] =
      some (Clock.seconds 9) ∧
    (performAll [(2, .operation (.rename [120] [115])), (2, .operation (.listSet [115] 0 [98])),
        (3, .operation (.expire [115] 5)), (3, .operation (.setFields [115] []))]
      ((Call.operation (.expire [115] 0)).perform 1 sessionStore)).isLive 4 [115] = false ∧
    ∃ before call after,
      ([(3, .operation (.set [115] [98])), (4, .operation (.set [117] [99])),
        (5, .operation (.expire [117] 7)), (6, .operation (.rename [117] [115]))] :
          List (Nat × Call)) = before ++ call :: after ∧
      call.2.Succeeds call.1 (performAll ([(1, .delete [115])] ++ before) sessionStore) ∧
      call.2.Grants call.1 (performAll ([(1, .delete [115])] ++ before) sessionStore) [115] := by
  obtain ⟨hstep, hexpire, hrun⟩ := deadline_life_cycle sessionStore_deadlinesValued
  refine ⟨sessionStore_deadlinesValued, ?_, ?_, ?_⟩
  · refine (hstep 1 (.operation (.rename [115] [116])) [116] ⟨(), rfl⟩ (by decide)).trans ?_
    decide
  · refine (hexpire 1 [115] 0 ⟨(), rfl⟩).2 (by decide) _ 4 (by decide) ?_
    intro before call after hcalls hok hcreates
    cases before with
    | nil =>
        cases hcalls
        obtain ⟨value, hvalue⟩ := hok
        cases hvalue
    | cons first before =>
        have hcall : call ∈ before ++ call :: after := by simp
        rw [← show _ = before ++ call :: after from (List.cons.inj hcalls).2] at hcall
        simp only [List.mem_cons, List.not_mem_nil, or_false] at hcall
        rcases hcall with rfl | rfl | rfl
        · exact hcreates
        · exact hcreates
        · exact hcreates.2 rfl
  · exact hrun [(1, .delete [115])] _ 2 7 [115] (by decide) (by decide) (by decide +kernel)

end Store

end KeyValue
