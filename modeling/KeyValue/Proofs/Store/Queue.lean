import KeyValue.Proofs.Store.Isolation
import KeyValue.Proofs.Store.ListCell
import KeyValue.Proofs.Store.Reachable

namespace KeyValue

-- A list is a queue if what is pushed on one side of it is popped on the other.
namespace Store.Side

def opposite : Side → Side
  | .head => .tail
  | .tail => .head

-- The elements in the order in which they will be popped, if they are pushed on this side.
def inTurn (side : Side) (items : List Bytes) : List Bytes :=
  match side with
  | .head => items.reverse
  | .tail => items

theorem length_inTurn (side : Side) (items : List Bytes) :
    (side.inTurn items).length = items.length := by
  cases side with
  | head => exact List.length_reverse
  | tail => rfl

theorem inTurn_push (side : Side) (values items : List Bytes) :
    side.inTurn (side.push values items) = side.inTurn items ++ values := by
  cases side with
  | head => simp [inTurn, push]
  | tail => rfl

-- What comes out on the other side is the element whose turn it is.
theorem fst_pop_opposite (side : Side) (items : List Bytes) :
    (side.opposite.pop items).1 = (side.inTurn items).head? := by
  cases side with
  | head => exact List.head?_reverse.symm
  | tail => rfl

theorem inTurn_pop_opposite (side : Side) (items : List Bytes) :
    side.inTurn (side.opposite.pop items).2 = (side.inTurn items).tail := by
  cases side with
  | head => exact List.tail_reverse.symm
  | tail => rfl

end Store.Side

open Store (Side)

namespace Cell

-- A cell with a list that is never due, and nothing else. Without items there is no list.
def ofItems (items : List Bytes) : Cell := keepList vacant items

@[simp] theorem items_ofItems (items : List Bytes) : (ofItems items).items = items :=
  items_listing none items

@[simp] theorem evict_ofItems (now : Nat) (items : List Bytes) :
    (ofItems items).evict now = ofItems items := by
  have hdue : (ofItems items).isDue now = false :=
    isDue_listing (by rintro instant ⟨⟩) items
  rw [evict, hdue]
  rfl

theorem typed_ofItems {α : Type} (act : Cell → Except StoreError α × Cell) (items : List Bytes) :
    (ofItems items).typed .list act = act (ofItems items) :=
  typed_listing act none items

theorem push_ofItems (side : Side) {values : List Bytes} (h : values ≠ []) (items : List Bytes) :
    (ofItems items).push side values =
      (.ok (items.length + values.length), ofItems (side.push values items)) :=
  push_listing side h fun _ => rfl

theorem pop_ofItems (side : Side) (items : List Bytes) :
    (ofItems items).pop side = (.ok (side.pop items).1, ofItems (side.pop items).2) :=
  pop_listing side none items

theorem WellFormed.eq_ofItems {cell : Cell} {items : List Bytes} (h : cell.WellFormed)
    (hlist : cell.list = some items) (hdeadline : cell.deadline = none) : cell = ofItems items := by
  obtain ⟨slots, deadline⟩ := cell
  subst hdeadline
  cases h.slots with
  | vacant => cases hlist
  | string value => cases hlist
  | list items hitems =>
      cases hlist
      exact (listing_of_ne_nil hitems).symm
  | hash fields hfields => cases hlist

end Cell

namespace Store

variable {key : Bytes} {side : Side} {now later : Nat} {store : Store} {items : List Bytes}
  {tokens : List Bytes}

-- Work on one key is work on its cell.
theorem execute_of_onCell (now : Nat) (store : Store) {command : Command}
    {act : Cell → Reply × Cell} (hparse : Command.parse tokens = .ok command)
    (heffect : command.effect now = .onCell key act) :
    (store.execute now tokens).1 = (act ((store.keyspace.cell key).evict now)).1 ∧
      (store.execute now tokens).2.keyspace.cell key =
        (act ((store.keyspace.cell key).evict now)).2 := by
  have heffectOf : Command.effectOf now tokens = .onCell key act := by
    rw [← heffect, Command.effectOf, hparse]
  rw [execute_eq_perform, heffectOf, Effect.perform, onCell]
  exact ⟨rfl, Keyspace.cell_put_self ..⟩

-- From now on there is nothing under the key but a list of these items that is never due.
def Queues (key : Bytes) (now : Nat) (items : List Bytes) (store : Store) : Prop :=
  (store.keyspace.cell key).evict now = .ofItems items

namespace Queues

theorem mono (h : Queues key now items store) (hle : now ≤ later) :
    Queues key later items store := by
  rw [Queues, ← Cell.evict_evict _ hle, h, Cell.evict_ofItems]

theorem of_agreeOn {other : Store} (h : Queues key now items store)
    (hagree : AgreeOn {key} now other store) : Queues key now items other :=
  (hagree key rfl).trans h

theorem push {values : List Bytes} (h : Queues key now items store)
    (hparse : Command.parse tokens = .ok (.push side key values)) :
    (store.execute now tokens).1 = .ofLength (items.length + values.length) ∧
      Queues key now (side.push values items) (store.execute now tokens).2 := by
  have hpush : (Cell.ofItems items).typed .list (Cell.push side values) =
      (.ok (items.length + values.length), .ofItems (side.push values items)) := by
    rw [Cell.typed_ofItems, Cell.push_ofItems side (Command.complete_of_parse hparse)]
  obtain ⟨hreply, hafter⟩ := execute_of_onCell now store hparse rfl
  rw [h, Cell.replying, hpush] at hreply hafter
  exact ⟨hreply, by rw [Queues, hafter, Cell.evict_ofItems]⟩

theorem pop (h : Queues key now items store)
    (hparse : Command.parse tokens = .ok (.pop side key)) :
    (store.execute now tokens).1 = .ofOption (side.pop items).1 ∧
      Queues key now (side.pop items).2 (store.execute now tokens).2 := by
  have hpop : (Cell.ofItems items).typed .list (Cell.pop side) =
      (.ok (side.pop items).1, .ofItems (side.pop items).2) := by
    rw [Cell.typed_ofItems, Cell.pop_ofItems]
  obtain ⟨hreply, hafter⟩ := execute_of_onCell now store hparse rfl
  rw [h, Cell.replying, hpop] at hreply hafter
  exact ⟨hreply, by rw [Queues, hafter, Cell.evict_ofItems]⟩

theorem listItems (h : Queues key now items store)
    (hparse : Command.parse tokens = .ok (.listItems key)) :
    (store.execute now tokens).1 = .ofBytesList items := by
  have hread : (Cell.ofItems items).typedRead .list Cell.items = (.ok items, .ofItems items) := by
    rw [Cell.typedRead, Cell.typed_ofItems, Cell.items_ofItems]
  obtain ⟨hreply, -⟩ := execute_of_onCell now store hparse rfl
  rwa [h, Cell.replying, hread] at hreply

end Queues

-- The request does not name the key, or only reads, or at any rate changes nothing that is
-- live under the key.
def LeavesAlone (key : Bytes) (now : Nat) (tokens : List Bytes) (store : Store) : Prop :=
  (∀ command, Command.parse tokens = .ok command →
    command.ReadsOnly ∨ command ≠ .flushAll ∧ key ∉ command.named) ∨
  AgreeOn {key} now (store.execute now tokens).2 store

theorem LeavesAlone.agreeOn (h : LeavesAlone key now tokens store) :
    AgreeOn {key} now (store.execute now tokens).2 store := by
  rcases h with h | h
  · rw [execute_eq_perform, Command.effectOf]
    cases hparse : Command.parse tokens with
    | error refusal => exact .refl _ _ _
    | ok command =>
        rcases h command hparse with hreads | ⟨hflush, hnamed⟩
        · exact .of_alike ((Command.effect_idle hreads now).perform_alike now store)
        · refine Effect.perform_agreeOn_self (fun other hother => ?_)
            (Command.effect_ne_clear hflush now) now store
          rintro rfl
          exact hnamed (Command.named_of_mem_cells hother)
  · exact h

inductive QueueCall (side : Side) (key : Bytes) (tokens : List Bytes) : Prop where
  | push (values : List Bytes) (h : Command.parse tokens = .ok (.push side key values))
  | pop (h : Command.parse tokens = .ok (.pop side.opposite key))

-- Runs in which nothing but these calls changes the key. Whose requests they are, and how
-- those of several clients are mixed, does not matter.
inductive QueueRun (side : Side) (key : Bytes) : Store → List (Nat × Turn) → Prop where
  | nil (store : Store) : QueueRun side key store []
  | request {store : Store} {now : Nat} {tokens : List Bytes} {rest : List (Nat × Turn)}
      (h : ¬QueueCall side key tokens → LeavesAlone key now tokens store)
      (hrest : QueueRun side key (store.execute now tokens).2 rest) :
      QueueRun side key store ((now, .request tokens) :: rest)
  | chore {store : Store} {now : Nat} {chore : Chore} {rest : List (Nat × Turn)}
      (hrest : QueueRun side key (chore.perform now store) rest) :
      QueueRun side key store ((now, .chore chore) :: rest)

-- The requests of a run, each with its reply.
def log (store : Store) (turns : List (Nat × Turn)) : List (List Bytes × Reply) :=
  ((requests turns).map Prod.snd).zip (store.run turns).1

theorem log_request (store : Store) (now : Nat) (tokens : List Bytes) (rest : List (Nat × Turn)) :
    store.log ((now, .request tokens) :: rest) =
      (tokens, (store.execute now tokens).1) :: (store.execute now tokens).2.log rest := rfl

-- Every entry of the log comes from a request in the run, and the entries before it from the
-- turns before that request.
theorem exists_turns_of_log {turns : List (Nat × Turn)} {before after : List (List Bytes × Reply)}
    {reply : Reply} (h : store.log turns = before ++ (tokens, reply) :: after) :
    ∃ earlier now later, turns = earlier ++ (now, .request tokens) :: later ∧
      store.log earlier = before ∧ ((store.run earlier).2.execute now tokens).1 = reply := by
  induction turns generalizing store before with
  | nil => simp [log, requests] at h
  | cons first rest ih =>
      obtain ⟨now, turn⟩ := first
      cases turn with
      | request called =>
          rw [log_request] at h
          cases before with
          | nil =>
              cases h
              exact ⟨[], now, rest, rfl, rfl, rfl⟩
          | cons entry before =>
              obtain ⟨hentry, hrest⟩ := List.cons.inj h
              obtain ⟨earlier, instant, later, rfl, hbefore, hreply⟩ := ih hrest
              refine ⟨(now, .request called) :: earlier, instant, later, rfl, ?_, hreply⟩
              rw [log_request, hbefore, hentry]
      | chore chore =>
          obtain ⟨earlier, instant, later, rfl, hbefore, hreply⟩ := ih h
          exact ⟨(now, .chore chore) :: earlier, instant, later, rfl, hbefore, hreply⟩

theorem QueueRun.earlier {before after : List (Nat × Turn)}
    (h : QueueRun side key store (before ++ after)) : QueueRun side key store before := by
  induction before generalizing store with
  | nil => exact .nil store
  | cons first rest ih =>
      cases h with
      | request hcall hrest => exact .request hcall (ih hrest)
      | chore hrest => exact .chore (ih hrest)

-- The values that the requests in a log pushed under the key, and those that were popped.

def pushed (side : Side) (key : Bytes) (log : List (List Bytes × Reply)) : List Bytes :=
  log.flatMap fun (tokens, _) =>
    match Command.parse tokens with
    | .ok (.push side' key' values) => if side' = side ∧ key' = key then values else []
    | _ => []

def popped (side : Side) (key : Bytes) (log : List (List Bytes × Reply)) : List Bytes :=
  log.flatMap fun (tokens, reply) =>
    match Command.parse tokens, reply with
    | .ok (.pop side' key'), .bulk value => if side' = side ∧ key' = key then [value] else []
    | _, _ => []

theorem pushed_cons {values : List Bytes}
    (h : Command.parse tokens = .ok (.push side key values)) (reply : Reply)
    (rest : List (List Bytes × Reply)) :
    pushed side key ((tokens, reply) :: rest) = values ++ pushed side key rest := by
  simp [pushed, h]

theorem popped_cons (h : Command.parse tokens = .ok (.pop side key)) (value : Option Bytes)
    (rest : List (List Bytes × Reply)) :
    popped side key ((tokens, .ofOption value) :: rest) = value.toList ++ popped side key rest := by
  cases value <;> simp [popped, h, Reply.ofOption]

theorem pushed_cons_other (h : ∀ values, Command.parse tokens ≠ .ok (.push side key values))
    (reply : Reply) (rest : List (List Bytes × Reply)) :
    pushed side key ((tokens, reply) :: rest) = pushed side key rest := by
  simp only [pushed, List.flatMap_cons, List.append_left_eq_self]
  split
  · rename_i side' key' values hparse
    refine if_neg ?_
    rintro ⟨rfl, rfl⟩
    exact h values hparse
  · rfl

theorem popped_cons_other (h : Command.parse tokens ≠ .ok (.pop side key)) (reply : Reply)
    (rest : List (List Bytes × Reply)) :
    popped side key ((tokens, reply) :: rest) = popped side key rest := by
  simp only [popped, List.flatMap_cons, List.append_left_eq_self]
  split
  · rename_i side' key' value hparse
    refine if_neg ?_
    rintro ⟨rfl, rfl⟩
    exact h hparse
  · rfl

-- What has been popped and what is still there are what was there and what has been pushed.
theorem QueueRun.conserves {turns : List (Nat × Turn)} {finish : Nat}
    (hrun : QueueRun side key store turns) (h : Queues key now items store)
    (hordered : (now :: (turns.map Prod.fst ++ [finish])).Pairwise (· ≤ ·)) :
    ∃ left, Queues key finish left (store.run turns).2 ∧
      popped side.opposite key (store.log turns) ++ side.inTurn left =
        side.inTurn items ++ pushed side key (store.log turns) := by
  induction hrun generalizing now items with
  | nil store =>
      have hle : now ≤ finish := by simpa using hordered
      exact ⟨items, h.mono hle, (List.append_nil _).symm⟩
  | @request store instant tokens rest hcall hrest ih =>
      obtain ⟨hfirst, hlater⟩ := List.pairwise_cons.mp hordered
      have hhere : Queues key instant items store := h.mono (hfirst instant (by simp))
      rw [log_request]
      by_cases hqueue : QueueCall side key tokens
      · cases hqueue with
        | push values hparse =>
            obtain ⟨-, hafter⟩ := hhere.push hparse
            obtain ⟨left, hleft, hsame⟩ := ih hafter hlater
            refine ⟨left, hleft, ?_⟩
            rw [pushed_cons hparse, popped_cons_other (by simp [hparse]), hsame, Side.inTurn_push,
              List.append_assoc]
        | pop hparse =>
            obtain ⟨hreply, hafter⟩ := hhere.pop hparse
            obtain ⟨left, hleft, hsame⟩ := ih hafter hlater
            refine ⟨left, hleft, ?_⟩
            rw [pushed_cons_other (by simp [hparse]), hreply, popped_cons hparse, List.append_assoc,
              hsame, Side.inTurn_pop_opposite, Side.fst_pop_opposite, ← List.append_assoc]
            congr 1
            cases side.inTurn items <;> rfl
      · obtain ⟨left, hleft, hsame⟩ := ih (hhere.of_agreeOn (hcall hqueue).agreeOn) hlater
        refine ⟨left, hleft, ?_⟩
        rw [pushed_cons_other fun values hparse => hqueue (.push values hparse),
          popped_cons_other fun hparse => hqueue (.pop hparse), hsame]
  | @chore store instant chore rest hrest ih =>
      obtain ⟨hfirst, hlater⟩ := List.pairwise_cons.mp hordered
      have hhere : Queues key instant items store := h.mono (hfirst instant (by simp))
      exact ih (hhere.of_agreeOn (.of_alike (chore.perform_alike instant store))) hlater

-- A key without a value is an empty queue, and a list without a deadline is a queue of its
-- items.
theorem Reachable.queues (h : Reachable now store)
    (hstart : (store.kind? now key).1 = none ∧ items = [] ∨
      store.keyspace.data.lists.get? key = some items ∧
        store.keyspace.deadlines.get? key = none) : Queues key now items store := by
  have hcell := Keyspace.wellFormed_iff_cell.mp h.wellFormed key
  rcases hstart with ⟨hnone, rfl⟩ | ⟨hlist, hdeadline⟩
  · rw [kind?_eq_onCell] at hnone
    exact (hcell.evict now).eq_vacant hnone
  · rw [Queues, hcell.eq_ofItems hlist hdeadline, Cell.evict_ofItems]

-- Between requests to other keys, reads, sweeps and snapshots, and however often the list is
-- emptied and made again, nothing that is pushed gets lost, comes twice or overtakes anything.
-- What is popped is nil only if there is nothing left to pop. Pushes at the tail and pops at the
-- head read the list from its head, the others from its tail.
theorem queue_in_order {turns : List (Nat × Turn)} {start finish : Nat}
    (hreach : Reachable start store)
    (hstart : (store.kind? start key).1 = none ∧ items = [] ∨
      store.keyspace.data.lists.get? key = some items ∧
        store.keyspace.deadlines.get? key = none)
    (hordered : (start :: (turns.map Prod.fst ++ [finish])).Pairwise (· ≤ ·))
    (hrun : QueueRun side key store turns) :
    (∃ left,
      (∀ tokens, Command.parse tokens = .ok (.listItems key) →
        ((store.run turns).2.execute finish tokens).1 = .ofBytesList left) ∧
      popped side.opposite key (store.log turns) ++ side.inTurn left =
        side.inTurn items ++ pushed side key (store.log turns)) ∧
    ∀ before tokens reply after, store.log turns = before ++ (tokens, reply) :: after →
      let waiting := side.inTurn items ++ pushed side key before
      let gone := popped side.opposite key before
      (Command.parse tokens = .ok (.pop side.opposite key) →
        reply = .ofOption waiting[gone.length]? ∧ (reply = .nil ↔ gone = waiting)) ∧
      ∀ values, Command.parse tokens = .ok (.push side key values) →
        ∃ length, reply = .ofLength length ∧
          gone.length + length = waiting.length + values.length := by
  have hqueue := hreach.queues hstart
  refine ⟨?_, fun before tokens reply after hlog => ?_⟩
  · obtain ⟨left, hleft, hsame⟩ := hrun.conserves hqueue hordered
    exact ⟨left, fun tokens hparse => hleft.listItems hparse, hsame⟩
  intro waiting gone
  obtain ⟨earlier, now, later, rfl, rfl, rfl⟩ := exists_turns_of_log hlog
  have hsofar : (start :: (earlier.map Prod.fst ++ [now])).Pairwise (· ≤ ·) := by
    refine hordered.sublist (List.Sublist.cons_cons start ?_)
    simp
  obtain ⟨left, hleft, hsame⟩ := hrun.earlier.conserves hqueue hsofar
  change gone ++ side.inTurn left = waiting at hsame
  refine ⟨fun hparse => ?_, fun values hparse => ?_⟩
  · have hnext : waiting[gone.length]? = (side.inTurn left).head? := by
      rw [← hsame, List.getElem?_append_right (Nat.le_refl _), Nat.sub_self, List.head?_eq_getElem?]
    rw [(hleft.pop hparse).1, Side.fst_pop_opposite, hnext]
    refine ⟨rfl, ?_⟩
    rw [← hsame, List.self_eq_append_right]
    cases side.inTurn left <;> simp [Reply.ofOption]
  · have hlength := congrArg List.length hsame
    rw [List.length_append, Side.length_inTurn] at hlength
    refine ⟨left.length + values.length, (hleft.push hparse).1, ?_⟩
    omega

-- One job is waiting. It is taken, the queue is found empty, and two more jobs come, of which
-- one is taken. A search for a job to remove finds none.
def jobStore : Store :=
  (Event.request [Bytes.ofText "RPUSH", [113], [97]]).perform 1 .empty

def jobTurns : List (Nat × Turn) := [
  (2, .request [Bytes.ofText "lpop", [113]]),
  (3, .chore .sweep),
  (3, .request [Bytes.ofText "LPOP", [113]]),
  (4, .request [Bytes.ofText "SET", [120], [97]]),
  (5, .request [Bytes.ofText "RPUSH", [113], [98], [99]]),
  (5, .chore .snapshot),
  (6, .request [Bytes.ofText "LREM", [113], [48], [122]]),
  (7, .request [Bytes.ofText "LPOP", [113]])]

theorem queueRun_jobTurns : QueueRun .tail [113] jobStore jobTurns := by
  have queued {now : Nat} {tokens : List Bytes} {store : Store}
      (h : QueueCall .tail [113] tokens) :
      ¬QueueCall .tail [113] tokens → LeavesAlone [113] now tokens store :=
    fun hnot => absurd h hnot
  refine .request (queued (.pop rfl)) (.chore (.request (queued (.pop rfl)) (.request ?set
    (.request (queued (.push [[98], [99]] rfl)) (.chore (.request ?remove
      (.request (queued (.pop rfl)) (.nil _))))))))
  case set =>
    refine fun _ => .inl ?_
    rintro command ⟨⟩
    exact .inr ⟨by rintro ⟨⟩, by decide⟩
  case remove =>
    refine fun _ => .inr ?_
    rintro key ⟨⟩
    decide +kernel

theorem jobTurns_in_order :
    Reachable 1 jobStore ∧ QueueRun .tail [113] jobStore jobTurns ∧
    popped .head [113] (jobStore.log jobTurns) = [[97], [98]] ∧
    pushed .tail [113] (jobStore.log jobTurns) = [[98], [99]] ∧
    ∃ left, ((jobStore.run jobTurns).2.execute 8 [Bytes.ofText "LGET", [113]]).1 =
        .ofBytesList left ∧
      popped .head [113] (jobStore.log jobTurns) ++ left =
        [[97]] ++ pushed .tail [113] (jobStore.log jobTurns) := by
  have hreach : Reachable 1 jobStore := (Reachable.start 0).step (show 0 ≤ 1 by decide) _
  have hordered : (1 :: (jobTurns.map Prod.fst ++ [8])).Pairwise (· ≤ ·) := by decide
  have hlist : jobStore.keyspace.data.lists.get? [113] = some [[97]] := by decide +kernel
  have hdeadline : jobStore.keyspace.deadlines.get? [113] = none := by decide +kernel
  obtain ⟨⟨left, hread, hsame⟩, -⟩ :=
    queue_in_order hreach (.inr ⟨hlist, hdeadline⟩) hordered queueRun_jobTurns
  exact ⟨hreach, queueRun_jobTurns, by decide +kernel, by decide +kernel, left, hread _ rfl, hsame⟩

end Store

end KeyValue
