import LazyNet.StoreQueue
import LazyNet.TaskQueue

/-! The store loop with its own queue, where the service calls it from the admin thread. A call
pushes its task and wakes the loop in the middle of its work: what it does to the table of
sessions comes after, and the loop may run the task before that. -/
namespace LazyNet.TaskQueue
open LazyNet.Sessions

/-- What a call of the service still does when `safeCall` has returned. -/
inductive Rest where
  /-- `newStoreSes` tests what `prePareStore` returned -/
  | keep (ses : StoreSession)
  | erase (sesid : UInt64)
  deriving DecidableEq, Repr

def Rest.run (ret : Nat → Int) : Rest → SessionService → SessionService
  | .keep ses, x =>
    if ret ses.serial = 0 then { x with storeSess_ := x.storeSess_.insert x.id_ ses } else x
  | .erase sesid, x => { x with storeSess_ := x.storeSess_.erase sesid }

structure Pushed where
  task : StoreTask
  service : SessionService
  rest : Option Rest := none

/-- A call up to its push, or `none` for one that returns without a push: it has then changed
nothing. -/
def start : ServiceCall → SessionService → Option Pushed
  | .newStoreSes port, x =>
    if x.storeSesCount_ < x.maxStoreConn_ then
      let ses : StoreSession := { serial := x.made, addr_ := { host := "127.0.0.1", port } }
      some {
        task := .bindAddr ses.serial
        service := { x with id_ := x.id_ + 1, made := x.made + 1 }
        rest := some (.keep ses) }
    else none
  | .startStoreSes sesid, x => (x.getStoreSes sesid).map fun ses =>
    { task := .attatchToLoop ses.serial
      service := { x with storeSesCount_ := x.storeSesCount_ + 1 } }
  | .stopStoreSes sesid, x => (x.getStoreSes sesid).map fun ses =>
    { task := .closeUDP ses.serial
      service := { x with storeSesCount_ := x.storeSesCount_ - 1 }
      rest := some (.erase sesid) }
  | .attatchLive sesid addr, x => (x.getStoreSes sesid).map fun ses =>
    { task := .addOutStream ses.serial addr
      service := { x with liveSesCount_ := x.liveSesCount_ + 1 } }
  | .detachLive sesid addr, x => (x.getStoreSes sesid).map fun ses =>
    { task := .removeOutStream ses.serial addr
      service := { x with liveSesCount_ := x.liveSesCount_ - 1 } }

structure Threads where
  service : SessionService := {}
  /-- what the call that is under way has left to do -/
  rest : Option Rest := none
  storeLoop : EventLoop Unit StoreTask := {}
  /-- the calls begun so far -/
  calls : List ServiceCall := []

inductive ThreadAction where
  | call (c : ServiceCall)
  | wakeup
  /-- the call that is under way comes to its end -/
  | finish
  | read
  | pop
  deriving DecidableEq, Repr

def Threads.free (x : Threads) : Bool := !x.storeLoop.waking () && x.rest.isNone

def ThreadAction.run (ret : Nat → Int) (room : Nat) : ThreadAction → Threads → Threads
  | .call c, x =>
    if x.free then
      match start c x.service with
      | none => { x with calls := x.calls ++ [c] }
      | some pushed =>
        { service := pushed.service.safeCall pushed.task
          rest := pushed.rest
          storeLoop := x.storeLoop.push () pushed.task
          calls := x.calls ++ [c] }
    else x
  | .wakeup, x => { x with storeLoop := (Action.wakeup ()).run room x.storeLoop }
  | .finish, x =>
    match x.rest with
    | none => x
    | some rest =>
      if x.storeLoop.waking () then x
      else { x with service := rest.run ret x.service, rest := none }
  | .read, x => { x with storeLoop := Action.read.run room x.storeLoop }
  | .pop, x => { x with storeLoop := Action.pop.run room x.storeLoop }

def afterThreadActions (ret : Nat → Int) (room : Nat) (actions : List ThreadAction) : Threads :=
  actions.foldl (fun x action => action.run ret room x) {}

def Threads.returned (ret : Nat → Int) (x : Threads) : SessionService :=
  match x.rest with
  | none => x.service
  | some rest => rest.run ret x.service

def callOf : LoopAction → Option ServiceCall
  | .admin c => some c
  | .execute => none

@[simp] theorem Rest.run_storeLoop (ret : Nat → Int) (rest : Rest) (x : SessionService) :
    (rest.run ret x).storeLoop_ = x.storeLoop_ := by
  cases rest with
  | keep ses =>
    rw [Rest.run]
    split_ifs <;> rfl
  | erase sesid => rfl

@[simp] theorem Threads.returned_storeLoop (ret : Nat → Int) (x : Threads) :
    (x.returned ret).storeLoop_ = x.service.storeLoop_ := by
  rw [Threads.returned]
  cases x.rest with
  | none => rfl
  | some rest => exact rest.run_storeLoop ret x.service

/-- A call is its part up to the push, the push, and the rest. -/
theorem run_eq_start (ret : Nat → Int) (c : ServiceCall) (x : SessionService) :
    (start c x = none ∧ c.run ret x = x) ∨
    ∃ pushed, start c x = some pushed ∧
      pushed.service.storeLoop_ = x.storeLoop_ ∧
      c.run ret x = Threads.returned ret
        { service := pushed.service.safeCall pushed.task, rest := pushed.rest } := by
  cases c with
  | newStoreSes port =>
    rw [start, ServiceCall.run]
    by_cases hlt : x.storeSesCount_ < x.maxStoreConn_
    · refine .inr ⟨_, if_pos hlt, rfl, ?_⟩
      by_cases hr : ret x.made = 0
      · rw [SessionService.newStoreSes_kept hlt hr]
        simp [Threads.returned, Rest.run, hr, SessionService.safeCall]
      · rw [SessionService.newStoreSes_failed hlt hr]
        simp [Threads.returned, Rest.run, hr]
    · exact .inl ⟨if_neg hlt, by rw [SessionService.newStoreSes_refused hlt]⟩
  | startStoreSes sesid =>
    rw [start, ServiceCall.run, SessionService.getStoreSes]
    cases hs : x.storeSess_[sesid]? with
    | none => exact .inl ⟨rfl, SessionService.startStoreSes_none hs⟩
    | some ses => exact .inr ⟨_, rfl, rfl, SessionService.startStoreSes_some hs⟩
  | stopStoreSes sesid =>
    rw [start, ServiceCall.run, SessionService.getStoreSes]
    cases hs : x.storeSess_[sesid]? with
    | none => exact .inl ⟨rfl, SessionService.stopStoreSes_none hs⟩
    | some ses => exact .inr ⟨_, rfl, rfl, SessionService.stopStoreSes_some hs⟩
  | attatchLive sesid addr =>
    rw [start, ServiceCall.run, SessionService.getStoreSes]
    obtain ⟨hs, hcase⟩ | ⟨ses, hs, hcase⟩ := SessionService.attatchLive_cases x sesid addr
    · rw [hs]
      exact .inl ⟨rfl, hcase⟩
    · rw [hs]
      exact .inr ⟨_, rfl, rfl, hcase⟩
  | detachLive sesid addr =>
    rw [start, ServiceCall.run, SessionService.getStoreSes]
    obtain ⟨hs, hcase⟩ | ⟨ses, hs, hcase⟩ := SessionService.detachLive_cases x sesid addr
    · rw [hs]
      exact .inl ⟨rfl, hcase⟩
    · rw [hs]
      exact .inr ⟨_, rfl, rfl, hcase⟩

/-- The loop of the store thread has accepted what the service pushed, and the abstract queue has
been executed as far as the loop has come. The abstract service is ahead of a call under way. -/
structure Refines (ret : Nat → Int) (x : Threads) (u : List LoopAction) : Prop where
  sound : Sound 0 x.storeLoop
  calls : u.filterMap callOf = x.calls
  service : (afterActions ret u).service = x.returned ret
  accepted : x.storeLoop.accepted = x.service.storeLoop_
  executed : (afterActions ret u).executed = x.storeLoop.executed.length

section Refinement
variable {ret : Nat → Int} {room : Nat} {x : Threads} {u : List LoopAction}

theorem Refines.quiet (h : Refines ret x u) {loop : EventLoop Unit StoreTask}
    (hs : Sound 0 loop) (ha : loop.accepted = x.storeLoop.accepted)
    (he : loop.executed = x.storeLoop.executed) :
    Refines ret { x with storeLoop := loop } u :=
  ⟨hs, h.calls, h.service, by rw [ha, h.accepted], by rw [he, h.executed]⟩

/-- A call is done for the abstract service where it pushes its task. -/
theorem Refines.call (h : Refines ret x u) (hfree : x.free = true) (c : ServiceCall) :
    Refines ret ((ThreadAction.call c).run ret room x) (u ++ [.admin c]) := by
  rw [Threads.free, Bool.and_eq_true, Option.isNone_iff_eq_none] at hfree
  have hreturned : x.returned ret = x.service := by rw [Threads.returned, hfree.2]
  have hcalls : (u ++ [LoopAction.admin c]).filterMap callOf = x.calls ++ [c] := by
    rw [List.filterMap_append, h.calls]
    rfl
  have hservice : (afterActions ret (u ++ [.admin c])).service = c.run ret x.service := by
    rw [afterActions_snoc, LoopAction.run, h.service, hreturned]
  have hexecuted : (afterActions ret (u ++ [.admin c])).executed =
      x.storeLoop.executed.length := by
    rw [afterActions_snoc, LoopAction.run, h.executed]
  rw [ThreadAction.run, if_pos (by simp [Threads.free, hfree])]
  obtain ⟨hstart, hrun⟩ | ⟨pushed, hstart, hloop, hrun⟩ := run_eq_start ret c x.service
  · rw [hstart]
    refine ⟨h.sound, hcalls, ?_, h.accepted, hexecuted⟩
    rw [hservice, hrun]
    exact hreturned.symm
  · rw [hstart]
    have hsound := h.sound.push () pushed.task
    have haccepted : (x.storeLoop.push () pushed.task).accepted =
        x.storeLoop.accepted ++ [pushed.task] := by
      rw [hsound.all rfl, h.sound.all rfl]
      rfl
    refine ⟨hsound, hcalls, hservice.trans hrun, ?_, hexecuted⟩
    rw [haccepted, h.accepted, SessionService.safeCall_storeLoop, hloop]

theorem Refines.finish (h : Refines ret x u) :
    Refines ret (ThreadAction.finish.run ret room x) u := by
  rw [ThreadAction.run]
  cases hrest : x.rest with
  | none => exact h
  | some rest =>
    have hreturned : x.returned ret = rest.run ret x.service := by rw [Threads.returned, hrest]
    split_ifs
    · exact h
    · refine ⟨h.sound, h.calls, h.service.trans hreturned, ?_, h.executed⟩
      rw [Rest.run_storeLoop, h.accepted]

theorem Refines.pop (h : Refines ret x u) :
    Refines ret (ThreadAction.pop.run ret room x) u ∨
      Refines ret (ThreadAction.pop.run ret room x) (u ++ [.execute]) := by
  have hsound : Sound 0 (Action.pop.run room x.storeLoop) := h.sound.step .pop
  rw [ThreadAction.run]
  by_cases hr : x.storeLoop.running = true
  · rw [Action.run, if_pos hr, EventLoop.pop, SafeQueue.pop_wait] at hsound ⊢
    cases hitems : x.storeLoop.tasks_.items_ with
    | nil =>
      rw [hitems] at hsound
      exact .inl (h.quiet hsound rfl rfl)
    | cons task tasks =>
      rw [hitems] at hsound
      refine .inr ⟨hsound, ?_, ?_, h.accepted, ?_⟩
      · rw [List.filterMap_append, h.calls]
        exact List.append_nil _
      · rw [afterActions_snoc]
        exact h.service
      · have hlen := congrArg List.length h.sound.ledger
        rw [h.accepted, hitems, List.length_append, List.length_cons] at hlen
        simp only [afterActions_snoc, LoopAction.run, h.executed, h.service,
          Threads.returned_storeLoop, List.length_append, List.length_singleton]
        omega
  · rw [Action.run, if_neg hr] at hsound ⊢
    exact .inl h

theorem Refines.step (h : Refines ret x u) (action : ThreadAction) :
    ∃ u', Refines ret (action.run ret room x) u' := by
  cases action with
  | call c =>
    cases hfree : x.free with
    | false => exact ⟨u, by rw [ThreadAction.run, if_neg (by simp [hfree])]; exact h⟩
    | true => exact ⟨_, h.call hfree c⟩
  | wakeup =>
    refine ⟨u, h.quiet (h.sound.step (.wakeup ())) ?_ ?_⟩
    · rw [Action.run]
      split_ifs <;> rfl
    · rw [Action.run]
      split_ifs <;> rfl
  | finish => exact ⟨u, h.finish⟩
  | read =>
    refine ⟨u, h.quiet (h.sound.step .read) ?_ ?_⟩
    · rw [Action.run]
      split_ifs <;> rfl
    · rw [Action.run]
      split_ifs <;> rfl
  | pop =>
    obtain hquiet | hexec := h.pop
    · exact ⟨_, hquiet⟩
    · exact ⟨_, hexec⟩

theorem refines_afterThreadActions (ret : Nat → Int) (room : Nat) (actions : List ThreadAction) :
    ∃ u, Refines ret (afterThreadActions ret room actions) u := by
  induction actions using List.reverseRecOn with
  | nil =>
    exact ⟨[], ⟨rfl, rfl, rfl, fun _ => Nat.zero_le _, List.Sublist.refl [], fun _ => rfl,
      fun hne => absurd rfl hne⟩, rfl, rfl, rfl, rfl⟩
  | append_singleton actions action ih =>
    obtain ⟨u, hu⟩ := ih
    have hsnoc : afterThreadActions ret room (actions ++ [action]) =
        action.run ret room (afterThreadActions ret room actions) := by
      simp [afterThreadActions]
    rw [hsnoc]
    exact hu.step action

end Refinement

/-- The two threads, with the queue and the pipe between them and with the table changed after
the push, do what the service and the queue of the store loop do in some order of whole calls and
executions. The calls are those that were begun, in their order; where the admin thread is inside
one, the table is still to be changed as that call will change it. The tasks that were run are the
first ones queued, and the queue holds the others. -/
theorem threads_refine_loops (ret : Nat → Int) (room : Nat) (actions : List ThreadAction) :
    let x := afterThreadActions ret room actions
    ∃ u, u.filterMap callOf = x.calls ∧
      (afterActions ret u).service = x.returned ret ∧
      x.storeLoop.executed = x.service.storeLoop_.take (afterActions ret u).executed ∧
      x.storeLoop.tasks_.items_ = (afterActions ret u).queue := by
  intro x
  obtain ⟨u, hu⟩ := refines_afterThreadActions ret room actions
  have hledger := hu.sound.ledger
  rw [hu.accepted] at hledger
  refine ⟨u, hu.calls, hu.service, ?_, ?_⟩
  · rw [hu.executed, ← hledger, List.take_left]
  · rw [Loops.queue, hu.executed, hu.service, Threads.returned_storeLoop, ← hledger,
      List.drop_left]

end LazyNet.TaskQueue
