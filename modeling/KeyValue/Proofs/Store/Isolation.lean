import KeyValue.Proofs.Command.Operation
import KeyValue.Proofs.Store.Housekeeping

namespace KeyValue

namespace Store

-- The two stores hold the same under all keys of a set, apart from what is due.
def AgreeOn (keys : Set Bytes) (now : Nat) (a b : Store) : Prop :=
  ∀ key ∈ keys, (a.keyspace.cell key).evict now = (b.keyspace.cell key).evict now

namespace AgreeOn

variable {keys : Set Bytes} {now later : Nat} {a b c : Store}

theorem refl (keys : Set Bytes) (now : Nat) (store : Store) : AgreeOn keys now store store :=
  fun _ _ => rfl

theorem trans (hab : AgreeOn keys now a b) (hbc : AgreeOn keys now b c) : AgreeOn keys now a c :=
  fun key hkey => (hab key hkey).trans (hbc key hkey)

theorem of_alike (h : Alike now a b) : AgreeOn keys now a b :=
  fun key _ => alike_iff_cell.mp h key

theorem mono (h : AgreeOn keys now a b) (hle : now ≤ later) : AgreeOn keys later a b := by
  intro key hkey
  rw [← Cell.evict_evict _ hle, h key hkey, Cell.evict_evict _ hle]

end AgreeOn

end Store

namespace Effect

open Store (AgreeOn)

variable {keys : Set Bytes} {now : Nat} {a b store : Store}

-- The keys whose cells an effect works on.
def cells : Effect → List Bytes
  | .silent _ | .clear | .listKeys _ => []
  | .onCell key _ => [key]
  | .onCells first second _ _ => [first, second]

-- An effect that stays inside the set cannot tell stores apart that agree there.
theorem perform_agreeOn {effect : Effect} (hinside : ∀ key ∈ effect.cells, key ∈ keys)
    (hlist : ∀ pattern, effect ≠ .listKeys pattern) (h : AgreeOn keys now a b) :
    (effect.perform now a).1 = (effect.perform now b).1 ∧
      AgreeOn keys now (effect.perform now a).2 (effect.perform now b).2 := by
  cases effect with
  | silent reply => exact ⟨rfl, h⟩
  | clear => exact ⟨rfl, .refl keys now _⟩
  | listKeys pattern => exact absurd rfl (hlist pattern)
  | onCell key act =>
      have hkey := h key (hinside key (by simp [cells]))
      refine ⟨congrArg (fun cell => (act cell).1) hkey, fun other hother => ?_⟩
      simp only [perform, Store.onCell, Keyspace.cell_put_apply, hkey]
      split
      · rfl
      · exact h other hother
  | onCells first second hne act =>
      have hfirst := h first (hinside first (by simp [cells]))
      have hsecond := h second (hinside second (by simp [cells]))
      simp only [perform, Store.onCells, hfirst, hsecond]
      refine ⟨trivial, fun other hother => ?_⟩
      simp only [Keyspace.cell_put_apply]
      split
      · rfl
      · split
        · rfl
        · exact h other hother

-- One that stays outside changes nothing there.
theorem perform_agreeOn_self {effect : Effect} (houtside : ∀ key ∈ effect.cells, key ∉ keys)
    (hclear : effect ≠ .clear) (now : Nat) (store : Store) :
    AgreeOn keys now (effect.perform now store).2 store := by
  have apart {key other : Bytes} (hkey : key ∈ effect.cells) (hother : other ∈ keys) :
      other ≠ key := fun heq => houtside key hkey (heq ▸ hother)
  cases effect with
  | silent reply => exact .refl keys now store
  | clear => exact absurd rfl hclear
  | listKeys pattern => exact .of_alike (Store.purge_alike now store)
  | onCell key act =>
      intro other hother
      have hne : other ≠ key := apart (by simp [cells]) hother
      simp only [perform, Store.onCell, Keyspace.cell_put_apply, hne, if_false]
  | onCells first second _ act =>
      intro other hother
      have hfirst : other ≠ first := apart (by simp [cells]) hother
      have hsecond : other ≠ second := apart (by simp [cells]) hother
      simp only [perform, Store.onCells, Keyspace.cell_put_apply, hfirst, hsecond, if_false]

end Effect

namespace Command

-- A command works on the cells of the keys that it names, and on no others.
theorem named_of_mem_cells {command : Command} {now : Nat} {key : Bytes}
    (h : key ∈ (command.effect now).cells) : key ∈ command.named := by
  cases command with
  | expire other seconds =>
      revert h
      simp only [effect]
      split
      · rintro ⟨⟩
      · exact id
  | rename old new =>
      revert h
      simp only [effect]
      split
      · exact fun h => List.mem_cons.mpr (.inl (List.mem_singleton.mp h))
      · exact id
  | _ => exact h

-- Only commands that name no key clear the store or list it.
theorem effect_keyed {command : Command} (h : command.named ≠ []) (now : Nat) :
    command.effect now ≠ .clear ∧ ∀ pattern, command.effect now ≠ .listKeys pattern := by
  cases command with
  | ping | echo | flushAll | keys => exact absurd rfl h
  | expire key seconds =>
      simp only [effect]
      split <;> exact ⟨by rintro ⟨⟩, by rintro _ ⟨⟩⟩
  | rename old new =>
      simp only [effect]
      split <;> exact ⟨by rintro ⟨⟩, by rintro _ ⟨⟩⟩
  | _ => exact ⟨by rintro ⟨⟩, by rintro _ ⟨⟩⟩

theorem effect_ne_clear {command : Command} (h : command ≠ .flushAll) (now : Nat) :
    command.effect now ≠ .clear := by
  by_cases hnamed : command.named = []
  · cases command with
    | ping | echo | keys => rintro ⟨⟩
    | flushAll => exact absurd rfl h
    | _ => cases hnamed
  · exact (effect_keyed hnamed now).1

variable {keys : Set Bytes} {command : Command}

-- A renaming is not to carry anything into the set of keys or out of it.
def KeepsTo (keys : Set Bytes) (command : Command) : Prop :=
  ∀ old new, command = .rename old new → (old ∈ keys ↔ new ∈ keys)

theorem named_cases (command : Command) :
    command.named = [] ∨ (∃ key, command.named = [key]) ∨ ∃ old new, command = .rename old new := by
  cases command <;> simp [named]

theorem KeepsTo.named_subset (h : command.KeepsTo keys) {key : Bytes} (hkey : key ∈ command.named)
    (hin : key ∈ keys) : ∀ other ∈ command.named, other ∈ keys := by
  intro other hother
  rcases command.named_cases with hnone | ⟨only, hone⟩ | ⟨old, new, rfl⟩
  · rw [hnone] at hkey
    cases hkey
  · rw [hone, List.mem_singleton] at hkey hother
    rwa [hother, ← hkey]
  · have hboth := h old new rfl
    simp only [named, List.mem_cons, List.not_mem_nil, or_false] at hkey hother
    have hold : old ∈ keys := by
      rcases hkey with rfl | rfl
      · exact hin
      · exact hboth.mpr hin
    rcases hother with rfl | rfl
    · exact hold
    · exact hboth.mp hold

variable [DecidablePred (· ∈ keys)]

-- Clearing the store concerns every key. What is no command concerns none.
def concerns (keys : Set Bytes) [DecidablePred (· ∈ keys)] (tokens : List Bytes) : Bool :=
  match parse tokens with
  | .ok .flushAll => true
  | .ok command => command.named.any (· ∈ keys)
  | .error _ => false

theorem concerns_cases {tokens : List Bytes} (h : concerns keys tokens = true) :
    parse tokens = .ok .flushAll ∨
      ∃ command, parse tokens = .ok command ∧ ∃ key ∈ command.named, key ∈ keys := by
  unfold concerns at h
  split at h
  · exact .inl ‹_›
  · exact .inr ⟨_, ‹_›, by simpa using h⟩
  · cases h

theorem not_concerns_cases {tokens : List Bytes} (h : concerns keys tokens = false) :
    (∃ refusal, parse tokens = .error refusal) ∨
      ∃ command, parse tokens = .ok command ∧ command ≠ .flushAll ∧
        ∀ key ∈ command.named, key ∉ keys := by
  unfold concerns at h
  split at h
  · cases h
  · rename_i command hne hparse
    exact .inr ⟨command, hparse, hne, by simpa using h⟩
  · exact .inl ⟨_, ‹_›⟩

end Command

namespace Store

open Command (concerns)

variable {keys : Set Bytes} [DecidablePred (· ∈ keys)] {now : Nat} {a b : Store}
  {tokens : List Bytes}

theorem execute_agreeOn (hconcerns : concerns keys tokens = true)
    (hkeeps : ∀ command, Command.parse tokens = .ok command → command.KeepsTo keys)
    (h : AgreeOn keys now a b) :
    (a.execute now tokens).1 = (b.execute now tokens).1 ∧
      AgreeOn keys now (a.execute now tokens).2 (b.execute now tokens).2 := by
  rw [execute_eq_perform, execute_eq_perform]
  rcases Command.concerns_cases hconcerns with hflush | ⟨command, hparse, key, hkey, hin⟩
  · have heffect : Command.effectOf now tokens = .clear := by
      simp only [Command.effectOf, hflush, Command.effect]
    rw [heffect]
    exact ⟨rfl, .refl keys now _⟩
  · have heffect : Command.effectOf now tokens = command.effect now := by
      simp only [Command.effectOf, hparse]
    have hall := (hkeeps command hparse).named_subset hkey hin
    rw [heffect]
    exact Effect.perform_agreeOn
      (fun other hother => hall other (Command.named_of_mem_cells hother))
      (Command.effect_keyed (List.ne_nil_of_mem hkey) now).2 h

theorem execute_agreeOn_self (hconcerns : concerns keys tokens = false) (now : Nat)
    (store : Store) : AgreeOn keys now (store.execute now tokens).2 store := by
  rw [execute_eq_perform]
  rcases Command.not_concerns_cases hconcerns with ⟨refusal, hparse⟩ | ⟨command, hparse, hne, hout⟩
  · simp only [Command.effectOf, hparse]
    exact .refl keys now store
  · simp only [Command.effectOf, hparse]
    exact Effect.perform_agreeOn_self
      (fun key hkey => hout key (Command.named_of_mem_cells hkey))
      (Command.effect_ne_clear hne now) now store

-- The requests of a run that are about some keys, each with its reply.
theorem serve_agreeOn {calls : List (Nat × List Bytes)} {finish : Nat}
    (h : AgreeOn keys now a b)
    (hordered : (now :: (calls.map Prod.fst ++ [finish])).Pairwise (· ≤ ·))
    (hkeeps : ∀ call ∈ calls, ∀ command, Command.parse call.2 = .ok command →
      command.KeepsTo keys) :
    (calls.zip (a.serve calls).1).filter (fun entry => concerns keys entry.1.2) =
        (calls.filter fun call => concerns keys call.2).zip
          (b.serve (calls.filter fun call => concerns keys call.2)).1 ∧
      AgreeOn keys finish (a.serve calls).2
        (b.serve (calls.filter fun call => concerns keys call.2)).2 := by
  induction calls generalizing now a b with
  | nil =>
      have hle : now ≤ finish := by simpa using hordered
      exact ⟨rfl, h.mono hle⟩
  | cons first rest ih =>
      obtain ⟨instant, tokens⟩ := first
      obtain ⟨hfirst, hrest⟩ := List.pairwise_cons.mp hordered
      obtain ⟨hhere, hlater⟩ := List.forall_mem_cons.mp hkeeps
      have hnow : AgreeOn keys instant a b := h.mono (hfirst instant (by simp))
      cases hconcerns : concerns keys tokens with
      | true =>
          obtain ⟨hreply, hafter⟩ := execute_agreeOn hconcerns hhere hnow
          obtain ⟨hreplies, hend⟩ := ih hafter hrest hlater
          simp only [serve, List.filter_cons, hconcerns, if_true, List.zip_cons_cons, hreply]
          exact ⟨congrArg _ hreplies, hend⟩
      | false =>
          have hself := execute_agreeOn_self hconcerns instant a
          obtain ⟨hreplies, hend⟩ := ih (hself.trans hnow) hrest hlater
          simpa only [serve, List.filter_cons, hconcerns, List.zip_cons_cons, Bool.false_eq_true,
            if_false] using ⟨hreplies, hend⟩

theorem length_serve (store : Store) (calls : List (Nat × List Bytes)) :
    (store.serve calls).1.length = calls.length := by
  induction calls generalizing store with
  | nil => rfl
  | cons first rest ih => exact congrArg Nat.succ (ih _)

-- Whatever the store, requests that name none of some keys can be taken out of a run: the
-- others get the same replies, and at the end the keys have the same values and deadlines. A
-- request to clear the store stays in.
theorem other_keys_invisible (store : Store) {calls : List (Nat × List Bytes)} {finish : Nat}
    (hordered : (calls.map Prod.fst ++ [finish]).Pairwise (· ≤ ·))
    (hrename : ∀ call ∈ calls, ∀ old new, Command.parse call.2 = .ok (.rename old new) →
      (old ∈ keys ↔ new ∈ keys)) :
    let kept := calls.filter fun call => concerns keys call.2
    ((calls.zip (store.serve calls).1).filter fun entry => concerns keys entry.1.2).map Prod.snd =
      (store.serve kept).1 ∧
    ((store.serve calls).2.keyspace.purge finish).restrict (· ∈ keys) =
      ((store.serve kept).2.keyspace.purge finish).restrict (· ∈ keys) := by
  intro kept
  obtain ⟨hreplies, hend⟩ := serve_agreeOn (AgreeOn.refl keys 0 store)
    (.cons (fun instant _ => Nat.zero_le instant) hordered)
    fun call hcall command hparse old new heq => hrename call hcall old new (heq ▸ hparse)
  refine ⟨?_, Keyspace.restrict_eq_restrict_iff.mpr fun key hkey => ?_⟩
  · rw [hreplies]
    exact List.map_snd_zip (Nat.le_of_eq (length_serve store kept))
  · rw [Keyspace.cell_purge, Keyspace.cell_purge]
    exact hend key (of_decide_eq_true hkey)

-- The keys of one user of the store begin with a U.
def userKeys : Set Bytes := {key | key.head? = some 85}

instance : DecidablePred (· ∈ userKeys) :=
  fun key => inferInstanceAs (Decidable (key.head? = some 85))

-- Another user lists all keys, and so evicts the first user's one, before it is renamed.
def sharedRun : List (Nat × List Bytes) := [
  (0, [Bytes.ofText "SET", [85, 49], [97]]),
  (1, [Bytes.ofText "EXPIRE", [85, 49], [49]]),
  (2, [Bytes.ofText "RPUSH", [86, 49], [98]]),
  (Clock.seconds 2, [Bytes.ofText "KEYS"]),
  (Clock.seconds 3, [Bytes.ofText "RENAME", [85, 49], [85, 50]])]

theorem sharedRun_isolated :
    (sharedRun.map Prod.fst ++ [Clock.seconds 3]).Pairwise (· ≤ ·) ∧
    (sharedRun.filter fun call => concerns userKeys call.2).length = 3 ∧
    ((sharedRun.zip (empty.serve sharedRun).1).filter fun entry =>
        concerns userKeys entry.1.2).map Prod.snd =
      (empty.serve (sharedRun.filter fun call => concerns userKeys call.2)).1 := by
  have hordered : (sharedRun.map Prod.fst ++ [Clock.seconds 3]).Pairwise (· ≤ ·) := by decide
  have hrename : ∀ call ∈ sharedRun, ∀ old new,
      Command.parse call.2 = .ok (.rename old new) → (old ∈ userKeys ↔ new ∈ userKeys) := by
    simp only [sharedRun, List.forall_mem_cons]
    refine ⟨nofun, nofun, nofun, nofun, ?_, nofun⟩
    rintro old new ⟨⟩
    decide
  exact ⟨hordered, by decide +kernel, (other_keys_invisible empty hordered hrename).1⟩

end Store

end KeyValue
