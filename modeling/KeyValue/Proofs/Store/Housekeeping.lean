import KeyValue.Proofs.Command.Reads
import KeyValue.Snapshot.Encode

namespace KeyValue.Store

open Snapshot (encode)

-- What may be done with a store between requests: evicting what is due, and looking.
inductive Chore where
  | sweep
  | snapshot
  | stats
  | read (tokens : List Bytes) (verb : Verb) (hverb : Command.verb? tokens = some verb)
      (hreads : verb.readsOnly = true)

-- Looking at the counts gives no new store.
def Chore.perform (now : Nat) (chore : Chore) (store : Store) : Store :=
  match chore with
  | .sweep => (store.purge now).2
  | .snapshot => (store.snapshot now).2
  | .stats => store
  | .read tokens _ _ _ => (store.execute now tokens).2

theorem Chore.perform_alike (now : Nat) (chore : Chore) (store : Store) :
    Alike now (chore.perform now store) store := by
  cases chore with
  | sweep => exact purge_alike now store
  | snapshot => exact purge_alike now store
  | stats => exact .refl now store
  | read tokens verb hverb hreads =>
      rw [perform, execute_eq_perform]
      exact (Command.effectOf_idle hverb hreads now).perform_alike now store

inductive Turn where
  | request (tokens : List Bytes)
  | chore (chore : Chore)

-- The replies to the requests of a run, and the store that the run ends with.
def run (store : Store) : List (Nat × Turn) → List Reply × Store
  | [] => ([], store)
  | (now, .request tokens) :: rest =>
      let (reply, store) := store.execute now tokens
      let (replies, store) := store.run rest
      (reply :: replies, store)
  | (now, .chore chore) :: rest => (chore.perform now store).run rest

-- The same without chores.
def serve (store : Store) : List (Nat × List Bytes) → List Reply × Store
  | [] => ([], store)
  | (now, tokens) :: rest =>
      let (reply, store) := store.execute now tokens
      let (replies, store) := store.serve rest
      (reply :: replies, store)

theorem serve_append (store : Store) (calls calls' : List (Nat × List Bytes)) :
    store.serve (calls ++ calls') =
      ((store.serve calls).1 ++ ((store.serve calls).2.serve calls').1,
        ((store.serve calls).2.serve calls').2) := by
  induction calls generalizing store with
  | nil => rfl
  | cons call rest ih => simp only [List.cons_append, serve, ih]

def requests (turns : List (Nat × Turn)) : List (Nat × List Bytes) :=
  turns.filterMap fun (now, turn) =>
    match turn with
    | .request tokens => some (now, tokens)
    | .chore _ => none

-- The run in which everything that is due goes before each request.
def sweptBefore (requests : List (Nat × List Bytes)) : List (Nat × Turn) :=
  requests.flatMap fun (now, tokens) => [(now, .chore .sweep), (now, .request tokens)]

-- A request finds alike stores alike and leaves them so. A chore concerns one of them only,
-- and leaves the two alike as well.
theorem run_alike {turns : List (Nat × Turn)} {now finish : Nat} {a b : Store}
    (h : Alike now a b) (hordered : (now :: (turns.map Prod.fst ++ [finish])).Pairwise (· ≤ ·)) :
    (a.run turns).1 = (b.serve (requests turns)).1 ∧
      Alike finish (a.run turns).2 (b.serve (requests turns)).2 := by
  induction turns generalizing now a b with
  | nil =>
      have hle : now ≤ finish := by simpa using hordered
      exact ⟨rfl, h.mono hle⟩
  | cons first rest ih =>
      obtain ⟨instant, turn⟩ := first
      obtain ⟨hfirst, hrest⟩ := List.pairwise_cons.mp hordered
      have hhere : Alike instant a b := h.mono (hfirst instant (by simp))
      cases turn with
      | request tokens =>
          obtain ⟨hreply, hafter⟩ := execute_alike hhere tokens
          obtain ⟨hreplies, hend⟩ := ih hafter hrest
          exact ⟨congrArg₂ List.cons hreply hreplies, hend⟩
      | chore chore => exact ih ((chore.perform_alike instant a).trans hhere) hrest

theorem requests_sweptBefore (calls : List (Nat × List Bytes)) :
    requests (sweptBefore calls) = calls := by
  induction calls with
  | nil => rfl
  | cons first rest ih => exact congrArg (first :: ·) ih

theorem requests_sublist (turns : List (Nat × Turn)) :
    ((requests turns).map Prod.fst).Sublist (turns.map Prod.fst) := by
  induction turns with
  | nil => exact .slnil
  | cons first rest ih =>
      obtain ⟨now, turn⟩ := first
      cases turn with
      | request tokens => exact ih.cons_cons now
      | chore chore => exact ih.cons now

theorem ordered_sweptBefore {calls : List (Nat × List Bytes)} {finish : Nat}
    (h : (calls.map Prod.fst ++ [finish]).Pairwise (· ≤ ·)) :
    ((sweptBefore calls).map Prod.fst ++ [finish]).Pairwise (· ≤ ·) := by
  induction calls with
  | nil => exact h
  | cons first rest ih =>
      obtain ⟨hfirst, hrest⟩ := List.pairwise_cons.mp h
      have htimes : (sweptBefore rest).map Prod.fst =
          rest.flatMap fun call => [call.1, call.1] := by
        simp [sweptBefore, List.map_flatMap]
      have hlater : ∀ now ∈ (sweptBefore rest).map Prod.fst ++ [finish], first.1 ≤ now := by
        intro now hnow
        refine hfirst now ?_
        simpa [htimes, eq_comm] using hnow
      exact .cons (List.forall_mem_cons.mpr ⟨Nat.le_refl _, hlater⟩) (.cons hlater (ih hrest))

-- Whatever the store, sweeps, snapshots and reading commands that are put between requests
-- change neither a reply nor the snapshot at the end. So it makes no difference either
-- whether a key that is due goes as soon as it is due or only when someone asks for it.
theorem housekeeping_invisible (store : Store) {turns : List (Nat × Turn)} {finish : Nat}
    (hordered : (turns.map Prod.fst ++ [finish]).Pairwise (· ≤ ·)) :
    (store.run turns).1 = (store.serve (requests turns)).1 ∧
    encode ((store.run turns).2.snapshot finish).1 =
      encode ((store.serve (requests turns)).2.snapshot finish).1 ∧
    (store.run (sweptBefore (requests turns))).1 = (store.serve (requests turns)).1 ∧
    encode ((store.run (sweptBefore (requests turns))).2.snapshot finish).1 =
      encode ((store.serve (requests turns)).2.snapshot finish).1 := by
  have hstart {turns : List (Nat × Turn)}
      (h : (turns.map Prod.fst ++ [finish]).Pairwise (· ≤ ·)) :=
    run_alike (Alike.refl 0 store) (.cons (fun instant _ => Nat.zero_le instant) h)
  obtain ⟨hreplies, hend⟩ := hstart hordered
  have hswept := ordered_sweptBefore
    (hordered.sublist ((requests_sublist turns).append_right [finish]))
  obtain ⟨hreplies', hend'⟩ := hstart hswept
  rw [requests_sweptBefore] at hreplies' hend'
  exact ⟨hreplies, congrArg encode (snapshot_eq_of_alike hend), hreplies',
    congrArg encode (snapshot_eq_of_alike hend')⟩

-- The key is due after a second, and goes with the sweep in one run and with the last
-- request in the other.
def leaseRun : List (Nat × Turn) := [
  (0, .request [Bytes.ofText "set", [107], [118]]),
  (0, .request [Bytes.ofText "EXPIRE", [107], [49]]),
  (5, .chore .stats),
  (Clock.seconds 1, .chore .sweep),
  (Clock.seconds 2, .chore (.read [Bytes.ofText "get", [107]] .get (by decide +kernel) rfl)),
  (Clock.seconds 3, .request [Bytes.ofText "type", [107]])]

theorem leaseRun_invisible :
    (leaseRun.map Prod.fst ++ [Clock.seconds 3]).Pairwise (· ≤ ·) ∧
    (empty.run leaseRun).1.map Reply.text? = [some "OK", some "OK", some "none"] ∧
    (empty.run leaseRun).1 = (empty.serve (requests leaseRun)).1 := by
  have hordered : (leaseRun.map Prod.fst ++ [Clock.seconds 3]).Pairwise (· ≤ ·) := by decide
  exact ⟨hordered, by decide +kernel, (housekeeping_invisible empty hordered).1⟩

end KeyValue.Store
