import LazyNet.Poller

/-! What holds of the poller over whole runs: what can fail, and which handlers are called in one
turn of `loop_once`, whatever these handlers do to the channels. -/
namespace LazyNet.Poller
open LazyNet.Tables LazyNet.StepRuns
variable {x x' y : PollerEpoll} {action : Action}

/-- The handler that the next round calls for an event was set, if there is an event that some
handler is for. -/
def NextAnswered (x : PollerEpoll) : Prop :=
  0 < x.lastActive_ → ∀ e ∈ x.activeEvs_[(x.lastActive_ - 1).toNat]?, ∀ ch ∈ e.1,
    ∀ c ∈ x.channels[ch]?, ∀ call ∈ callFor c.id_ e.2, c.answers call = true

instance (x : PollerEpoll) : Decidable (NextAnswered x) :=
  inferInstanceAs (Decidable (_ → _))

/-- A handler that is called was set: for an event, or by the close of a channel that is open. -/
def Known : Action → PollerEpoll → Prop
  | .close ch, x => ∀ c ∈ x.channels[ch]?, 0 ≤ c.fd_ → c.readcb_ = true
  | .wait ready, x => NextAnswered (x.epoll_wait ready)
  | .next, x => NextAnswered x
  | _, _ => True

instance : ∀ (action : Action) (x : PollerEpoll), Decidable (Known action x)
  | .close ch, x =>
    inferInstanceAs (Decidable (∀ c ∈ x.channels[ch]?, 0 ≤ c.fd_ → c.readcb_ = true))
  | .wait ready, x => inferInstanceAs (Decidable (NextAnswered (x.epoll_wait ready)))
  | .next, x => inferInstanceAs (Decidable (NextAnswered x))
  | .newChannel .., _ => .isTrue trivial
  | .onRead _, _ => .isTrue trivial
  | .onWrite _, _ => .isTrue trivial
  | .enableRead .., _ => .isTrue trivial
  | .enableWrite .., _ => .isTrue trivial
  | .enableReadWrite .., _ => .isTrue trivial
  | .free _, _ => .isTrue trivial
  | .interrupted, _ => .isTrue trivial

section Faults
variable {ch : Nat} {events : UInt32}

theorem handle_ok_iff {c : Channel} (hc : x.channels[ch]? = some c) :
    (∃ x', x.handle ch events = .ok x') ↔
      ∀ call ∈ callFor c.id_ events, c.answers call = true := by
  constructor
  · intro ⟨x', h⟩
    obtain ⟨c', hc', hset, -⟩ := handle_ok.mp h
    rw [hc] at hc'
    cases hc'
    exact hset
  · exact fun hset => ⟨_, handle_ok.mpr ⟨c, hc, hset, rfl⟩⟩

theorem Sound.next_entry (hx : Sound x) (h0 : 0 < x.lastActive_) :
    ∃ e, x.activeEvs_[(x.lastActive_ - 1).toNat]? = some e ∧
      ∀ ch, e.1 = some ch → ∃ c : Channel, x.channels[ch]? = some c := by
  have hlt : (x.lastActive_ - 1).toNat < x.activeEvs_.length := by
    have := hx.reported
    omega
  refine ⟨x.activeEvs_[(x.lastActive_ - 1).toNat], List.getElem?_eq_getElem hlt, ?_⟩
  intro ch hch
  have hactive : Active x (x.lastActive_ - 1).toNat ch :=
    ⟨by omega, by rw [List.getElem?_eq_getElem hlt, Option.map_some, hch]⟩
  obtain ⟨c, hc, -⟩ := hx.active _ ch hactive
  exact ⟨c, hc⟩

theorem round_end (h0 : x.lastActive_ ≤ 0) :
    x.round = .ok { x with lastActive_ := x.lastActive_ - 1 } := by
  have hend : ¬ 0 ≤ x.lastActive_ - 1 := by omega
  simp only [PollerEpoll.round, if_neg hend]

theorem round_null {events : UInt32} (h0 : 0 < x.lastActive_)
    (he : x.activeEvs_[(x.lastActive_ - 1).toNat]? = some (none, events)) :
    x.round = .ok { x with lastActive_ := x.lastActive_ - 1 } := by
  have hgo : 0 ≤ x.lastActive_ - 1 := by omega
  simp only [PollerEpoll.round, if_pos hgo, he]

theorem round_handle (h0 : 0 < x.lastActive_)
    (he : x.activeEvs_[(x.lastActive_ - 1).toNat]? = some (some ch, events)) :
    x.round = PollerEpoll.handle ch events { x with lastActive_ := x.lastActive_ - 1 } := by
  have hgo : 0 ≤ x.lastActive_ - 1 := by omega
  simp only [PollerEpoll.round, if_pos hgo, he]

theorem round_ok_iff (hx : Sound x) : (∃ x', x.round = .ok x') ↔ NextAnswered x := by
  by_cases h0 : 0 < x.lastActive_
  · obtain ⟨⟨ptr, events⟩, he, hc⟩ := hx.next_entry h0
    rw [NextAnswered, he]
    cases ptr with
    | none => simp [round_null h0 he]
    | some ch =>
      obtain ⟨c, hch⟩ := hc ch rfl
      have hhandle : (∃ x', PollerEpoll.handle ch events
          { x with lastActive_ := x.lastActive_ - 1 } = .ok x') ↔
            ∀ call ∈ callFor c.id_ events, c.answers call = true := handle_ok_iff hch
      rw [round_handle h0 he, hhandle]
      simp [h0, hch]
  · exact ⟨fun _ hpos => absurd hpos h0, fun _ => ⟨_, round_end (Int.not_lt.mp h0)⟩⟩

theorem round_not_dangling (hx : Sound x) : x.round ≠ .error .dangling := by
  by_cases h0 : 0 < x.lastActive_
  · obtain ⟨⟨ptr, events⟩, he, hc⟩ := hx.next_entry h0
    cases ptr with
    | none => simp [round_null h0 he]
    | some ch =>
      obtain ⟨c, hch⟩ := hc ch rfl
      simp only [round_handle h0 he, PollerEpoll.handle, hch]
      cases callFor c.id_ events with
      | none => simp
      | some call =>
        simp only
        split_ifs <;> simp
  · simp [round_end (Int.not_lt.mp h0)]

theorem setHandler_total {g : Channel → Channel} (hch : ch ∈ x.channels) :
    ∃ x', PollerEpoll.setHandler g ch x = .ok x' := by
  obtain ⟨c, hc⟩ := mem_iff_get.mp hch
  exact ⟨_, setHandler_ok.mpr ⟨c, hc, rfl⟩⟩

theorem enable_total {f : UInt32 → UInt32} (hch : ch ∈ x.channels) :
    ∃ x', PollerEpoll.enable f ch x = .ok x' := by
  obtain ⟨c, hc⟩ := mem_iff_get.mp hch
  exact ⟨_, enable_ok.mpr ⟨c, hc, rfl⟩⟩

theorem close_ok_iff (hch : ch ∈ x.channels) :
    (∃ x', x.close ch = .ok x') ↔ ∀ c ∈ x.channels[ch]?, 0 ≤ c.fd_ → c.readcb_ = true := by
  obtain ⟨c, hc⟩ := mem_iff_get.mp hch
  have hset : (∀ c ∈ x.channels[ch]?, 0 ≤ c.fd_ → c.readcb_ = true) ↔
      (0 ≤ c.fd_ → c.readcb_ = true) := by
    rw [hc]
    simp
  rw [hset]
  constructor
  · intro ⟨x', h⟩ h0
    obtain ⟨c', hc', ⟨hneg, -⟩ | ⟨-, hcb, -⟩⟩ := close_ok.mp h
    · rw [hc] at hc'
      cases hc'
      omega
    · rw [hc] at hc'
      cases hc'
      exact hcb
  · intro hcb
    by_cases h0 : 0 ≤ c.fd_
    · exact ⟨_, close_ok.mpr ⟨c, hc, .inr ⟨h0, hcb h0, rfl⟩⟩⟩
    · exact ⟨_, close_ok.mpr ⟨c, hc, .inl ⟨by omega, rfl⟩⟩⟩

theorem step_ok_iff (hx : Sound x) (ha : Allowed action x) :
    (∃ x', step action x = .ok x') ↔ Known action x := by
  cases action with
  | newChannel ch fd events opened => exact ⟨fun _ => trivial, fun _ => ⟨_, rfl⟩⟩
  | onRead ch => exact ⟨fun _ => trivial, fun _ => setHandler_total ha⟩
  | onWrite ch => exact ⟨fun _ => trivial, fun _ => setHandler_total ha⟩
  | enableRead enabled ch => exact ⟨fun _ => trivial, fun _ => enable_total ha⟩
  | enableWrite enabled ch => exact ⟨fun _ => trivial, fun _ => enable_total ha⟩
  | enableReadWrite readable writable ch =>
    exact ⟨fun _ => trivial, fun _ => enable_total (f := fun events =>
      setEvent kWriteEvent writable (setEvent kReadEvent readable events)) ha⟩
  | close ch => exact close_ok_iff ha
  | free ch => exact ⟨fun _ => trivial, fun _ => ⟨_, rfl⟩⟩
  | wait ready => exact round_ok_iff (hx.epoll_wait ha.2.1)
  | interrupted =>
    refine ⟨fun _ => trivial, fun _ => (round_ok_iff hx.interrupted).mpr fun hpos => ?_⟩
    exact absurd (show (0 : Int) < -1 from hpos) (by decide)
  | next => exact round_ok_iff hx

theorem step_not_dangling (hx : Sound x) (ha : Allowed action x) :
    step action x ≠ .error .dangling := by
  have htotal : (∃ x', step action x = .ok x') → step action x ≠ .error .dangling := by
    rintro ⟨x', h⟩ herror
    rw [h] at herror
    cases herror
  cases action with
  | newChannel ch fd events opened => exact htotal ⟨_, rfl⟩
  | onRead ch => exact htotal (setHandler_total ha)
  | onWrite ch => exact htotal (setHandler_total ha)
  | enableRead enabled ch => exact htotal (enable_total ha)
  | enableWrite enabled ch => exact htotal (enable_total ha)
  | enableReadWrite readable writable ch =>
    exact htotal (enable_total (f := fun events =>
      setEvent kWriteEvent writable (setEvent kReadEvent readable events)) ha)
  | close ch =>
    obtain ⟨c, hc⟩ := mem_iff_get.mp ha
    simp only [step, PollerEpoll.close, hc]
    split_ifs <;> simp
  | free ch => exact htotal ⟨_, rfl⟩
  | wait ready => exact round_not_dangling (hx.epoll_wait ha.2.1)
  | interrupted => exact round_not_dangling hx.interrupted
  | next => exact round_not_dangling hx

end Faults

def twoChannels : List Action :=
  [.newChannel 100 5 1 true, .onRead 100, .onWrite 100, .newChannel 200 6 5 true, .onRead 200]

/-- The handler of one channel closes and frees it and another one, and a new channel takes the
place of that. -/
def reuse : List Action :=
  [.close 200, .free 200, .close 100, .free 100, .newChannel 100 5 1 true, .onRead 100, .next]

section Watching
variable {ch : Nat} {f : UInt32 → UInt32}

def Watched (x : PollerEpoll) : Prop :=
  ∀ (ch : Nat) (c : Channel), x.channels[ch]? = some c → 0 ≤ c.fd_ →
    x.interest[c.fd_]? = some (ch, c.events_)

def OwnDescriptor : Action → PollerEpoll → Prop
  | .newChannel _ fd _ opened, x => opened = true ∧ fd ∉ x.interest
  | _, _ => True

instance : ∀ (action : Action) (x : PollerEpoll), Decidable (OwnDescriptor action x)
  | .newChannel _ _ _ _, _ => inferInstanceAs (Decidable (_ ∧ _))
  | .onRead _, _ => .isTrue trivial
  | .onWrite _, _ => .isTrue trivial
  | .enableRead .., _ => .isTrue trivial
  | .enableWrite .., _ => .isTrue trivial
  | .enableReadWrite .., _ => .isTrue trivial
  | .close _, _ => .isTrue trivial
  | .free _, _ => .isTrue trivial
  | .wait _, _ => .isTrue trivial
  | .interrupted, _ => .isTrue trivial
  | .next, _ => .isTrue trivial

theorem Watched.fd_inj (hw : Watched x) {a b : Nat} {c d : Channel}
    (hc : x.channels[a]? = some c) (hd : x.channels[b]? = some d) (h0 : 0 ≤ c.fd_)
    (h : c.fd_ = d.fd_) : a = b := by
  have hin := hw a c hc h0
  rw [h, hw b d hd (h ▸ h0), Option.some.injEq, Prod.mk.injEq] at hin
  exact hin.1.symm

theorem Watched.newChannel (hw : Watched x) {fd : Int} {events : UInt32} (h0 : fd ∉ x.interest) :
    Watched (x.newChannel ch fd events true) := by
  intro a c hc hpos
  simp only [PollerEpoll.newChannel, PollerEpoll.addChannel, h0, not_false_eq_true, and_self,
    if_true] at hc ⊢
  rw [get_insert] at hc ⊢
  split_ifs at hc with ha
  · cases hc
    rw [if_pos rfl, ha]
  · have hin := hw a c hc hpos
    rw [if_neg, hin]
    intro hf
    exact h0 (hf ▸ mem_iff_get.mpr ⟨_, hin⟩)

theorem Watched.setHandler (hw : Watched x) {g : Channel → Channel}
    (hg : ∀ c, (g c).fd_ = c.fd_ ∧ (g c).events_ = c.events_)
    (h : PollerEpoll.setHandler g ch x = .ok x') : Watched x' := by
  obtain ⟨c, hc, rfl⟩ := setHandler_ok.mp h
  intro a d hd hpos
  rw [get_insert] at hd
  split_ifs at hd with ha
  · cases hd
    rw [(hg c).1] at hpos ⊢
    rw [(hg c).2, ← ha]
    exact hw ch c hc hpos
  · exact hw a d hd hpos

theorem Watched.enable (hx : Sound x) (hw : Watched x)
    (h : PollerEpoll.enable f ch x = .ok x') : Watched x' := by
  obtain ⟨c, hc, rfl⟩ := enable_ok.mp h
  intro a d hd hpos
  rw [get_insert] at hd
  simp only
  split_ifs at hd with ha
  · cases hd
    simp only at hpos ⊢
    rw [if_pos (mem_iff_get.mpr ⟨_, hw ch c hc hpos⟩), get_insert, if_pos rfl, ha]
  · have hin := hw a d hd hpos
    split_ifs with hknown
    · rw [get_insert, if_neg, hin]
      exact fun hf => ha (hw.fd_inj hc hd (hx.open_of_watched hknown) hf)
    · exact hin

theorem Watched.close (hw : Watched x) (h : x.close ch = .ok x') : Watched x' := by
  obtain ⟨c, hc, ⟨-, rfl⟩ | ⟨h0, -, rfl⟩⟩ := close_ok.mp h
  · exact hw
  · intro a d hd hpos
    rw [get_insert] at hd
    split_ifs at hd with ha
    · cases hd
      simp at hpos
    · rw [get_erase, if_neg, hw a d hd hpos]
      exact fun hf => ha (hw.fd_inj hc hd h0 hf)

theorem watched_step (hx : Sound x) (hw : Watched x) (ho : OwnDescriptor action x)
    (h : step action x = .ok x') : Watched x' := by
  cases action with
  | newChannel ch fd events opened =>
    obtain ⟨rfl, hfree⟩ := ho
    cases h
    exact hw.newChannel hfree
  | onRead ch =>
    exact hw.setHandler (g := fun c => { c with readcb_ := true }) (fun c => ⟨rfl, rfl⟩) h
  | onWrite ch =>
    exact hw.setHandler (g := fun c => { c with writecb_ := true }) (fun c => ⟨rfl, rfl⟩) h
  | enableRead enabled ch => exact hw.enable hx h
  | enableWrite enabled ch => exact hw.enable hx h
  | enableReadWrite readable writable ch =>
    exact hw.enable (f := fun events =>
      setEvent kWriteEvent writable (setEvent kReadEvent readable events)) hx h
  | close ch => exact hw.close h
  | free ch =>
    cases h
    intro a c hc hpos
    simp only [PollerEpoll.free, get_erase] at hc ⊢
    split_ifs at hc
    exact hw a c hc hpos
  | wait ready =>
    obtain ⟨calls, rfl, -⟩ := round_ok h
    exact hw
  | interrupted =>
    obtain ⟨calls, rfl, -⟩ := round_ok (x := { x with lastActive_ := -1 }) h
    exact hw
  | next =>
    obtain ⟨calls, rfl, -⟩ := round_ok h
    exact hw

/-- As long as new channels are on open descriptors of their own, epoll knows the open channels,
each for the events that it has enabled last, and nothing else. -/
theorem open_channels_watched (actions : List Action)
    (h : Meets step (fun action x => Allowed action x ∧ OwnDescriptor action x) actions {})
    (hrun : run step actions {} = .ok x) (fd : Int) (ch : Nat) (events : UInt32) :
    x.interest[fd]? = some (ch, events) ↔
      ∃ c : Channel, x.channels[ch]? = some c ∧ 0 ≤ c.fd_ ∧ c.fd_ = fd ∧ c.events_ = events := by
  have hinv := run_inv_of (I := fun x => Sound x ∧ Watched x)
    ⟨sound_start, fun ch c hc => absurd hc (by simp)⟩
    (fun action x x' hx ha hs =>
      ⟨sound_step action x x' hx.1 ha.1 hs, watched_step hx.1 hx.2 ha.2 hs⟩) h hrun
  refine ⟨hinv.1.watched fd ch events, ?_⟩
  rintro ⟨c, hc, h0, rfl, rfl⟩
  exact hinv.2 ch c hc h0

/-- A channel that wants to write, too, beside one that was closed. -/
theorem two_channels_watched : ∃ x,
    run step (twoChannels ++ [.enableWrite true 100, .close 200]) {} = .ok x ∧
      (x.interest[(5 : Int)]? = some (100, 5) ↔ ∃ c : Channel, x.channels[100]? = some c ∧
        0 ≤ c.fd_ ∧ c.fd_ = 5 ∧ c.events_ = 5) := by
  obtain ⟨x, hx⟩ : ∃ x,
      run step (twoChannels ++ [.enableWrite true 100, .close 200]) {} = .ok x := ⟨_, rfl⟩
  exact ⟨x, hx, open_channels_watched _ (by decide) hx 5 100 5⟩

end Watching

section Agenda

/-- Calls against events that wait, the next one first: the handler of the next event is called, if
there is one, and a channel that is closed has no event any more. -/
inductive Serves : List Call → List (Nat × UInt32) → List (Nat × UInt32) → Prop where
  | done (q : List (Nat × UInt32)) : Serves [] q q
  | closing (id : Nat) {calls : List Call} {q q' : List (Nat × UInt32)} :
    Serves calls (q.filter fun e => e.1 ≠ id) q' → Serves (.closing id :: calls) q q'
  | handled {call : Call} {calls : List Call} {e : Nat × UInt32} {q q' : List (Nat × UInt32)} :
    callFor e.1 e.2 = some call → Serves calls q q' → Serves (call :: calls) (e :: q) q'
  | unheard {calls : List Call} {e : Nat × UInt32} {q q' : List (Nat × UInt32)} :
    callFor e.1 e.2 = none → Serves calls q q' → Serves calls (e :: q) q'

def Call.isClosing : Call → Bool
  | .closing _ => true
  | _ => false

variable {call : Call} {calls calls' : List Call} {e : Nat × UInt32}
  {q q' q'' : List (Nat × UInt32)} {id : Nat} {events : UInt32}

theorem callFor_cases (h : callFor id events = some call) : call = .read id ∨ call = .write id := by
  rw [callFor] at h
  split_ifs at h <;> cases h
  · exact .inl rfl
  · exact .inr rfl

theorem callFor_not_closing (h : callFor id events = some call) : call.isClosing = false := by
  obtain rfl | rfl := callFor_cases h
  · rfl
  · rfl

theorem Serves.append (h : Serves calls q q') (h' : Serves calls' q' q'') :
    Serves (calls ++ calls') q q'' := by
  induction h with
  | done q => exact h'
  | closing id _ ih => exact .closing id (ih h')
  | handled hcall _ ih => exact .handled hcall (ih h')
  | unheard hnone _ ih => exact .unheard hnone (ih h')

theorem Serves.sublist (h : Serves calls q q') :
    (calls.filter fun call => !call.isClosing).Sublist (q.filterMap fun e => callFor e.1 e.2) := by
  induction h with
  | done q => simp
  | closing id _ ih =>
    rw [List.filter_cons_of_neg (by simp [Call.isClosing])]
    exact ih.trans (List.filter_sublist.filterMap _)
  | handled hcall _ ih =>
    rw [List.filter_cons_of_pos (by simp [callFor_not_closing hcall]),
      List.filterMap_cons_some (f := fun e : Nat × UInt32 => callFor e.1 e.2) hcall]
    exact ih.cons_cons _
  | unheard hnone _ ih =>
    rw [List.filterMap_cons_none (f := fun e : Nat × UInt32 => callFor e.1 e.2) hnone]
    exact ih

theorem Serves.call_mem (h : Serves calls q q') (hmem : call ∈ calls)
    (hcall : call.isClosing = false) : ∃ e ∈ q, callFor e.1 e.2 = some call := by
  have hin : call ∈ calls.filter fun call => !call.isClosing := by
    simp [List.mem_filter, hmem, hcall]
  simpa using h.sublist.subset hin

theorem Serves.not_after_closing (h : Serves calls q q') {pre post : List Call}
    (heq : calls = pre ++ .closing id :: post) : .read id ∉ post ∧ .write id ∉ post := by
  induction h generalizing pre with
  | done q => simp at heq
  | closing id' hrest ih =>
    cases pre with
    | nil =>
      obtain ⟨hid, hpost⟩ := List.cons.inj heq
      rw [Call.closing.inj hid] at hrest
      have hgone : ∀ call ∈ post, call.isClosing = false → call ≠ .read id ∧ call ≠ .write id := by
        intro call hmem hcall
        obtain ⟨e, he, hfor⟩ := hrest.call_mem (hpost ▸ hmem) hcall
        have hne : e.1 ≠ id := by simpa using (List.mem_filter.mp he).2
        obtain rfl | rfl := callFor_cases hfor
        · simpa using hne
        · simpa using hne
      exact ⟨fun hmem => (hgone _ hmem rfl).1 rfl, fun hmem => (hgone _ hmem rfl).2 rfl⟩
    | cons first pre => exact ih (List.cons.inj heq).2
  | handled hcall hrest ih =>
    cases pre with
    | nil =>
      rw [(List.cons.inj heq).1] at hcall
      exact absurd (callFor_not_closing hcall) (by simp [Call.isClosing])
    | cons first pre => exact ih (List.cons.inj heq).2
  | unheard _ _ ih => exact ih heq

theorem Serves.served (h : Serves calls q q') (he : e ∈ q) :
    e ∈ q' ∨ .closing e.1 ∈ calls ∨ (∃ call ∈ calls, callFor e.1 e.2 = some call) ∨
      callFor e.1 e.2 = none := by
  induction h with
  | done q => exact .inl he
  | @closing id calls q q' _ ih =>
    by_cases hid : e.1 = id
    · exact .inr (.inl (by simp [hid]))
    · obtain hq | hc | ⟨call, hmem, hcall⟩ | hnone :=
        ih (List.mem_filter.mpr ⟨he, by simpa using hid⟩)
      · exact .inl hq
      · exact .inr (.inl (List.mem_cons_of_mem _ hc))
      · exact .inr (.inr (.inl ⟨call, List.mem_cons_of_mem _ hmem, hcall⟩))
      · exact .inr (.inr (.inr hnone))
  | @handled call calls e' q q' hcall _ ih =>
    cases List.mem_cons.mp he with
    | inl heq => exact .inr (.inr (.inl ⟨call, List.mem_cons_self, heq ▸ hcall⟩))
    | inr hin =>
      obtain hq | hc | ⟨call, hmem, hcall⟩ | hnone := ih hin
      · exact .inl hq
      · exact .inr (.inl (List.mem_cons_of_mem _ hc))
      · exact .inr (.inr (.inl ⟨call, List.mem_cons_of_mem _ hmem, hcall⟩))
      · exact .inr (.inr (.inr hnone))
  | unheard hnone _ ih =>
    cases List.mem_cons.mp he with
    | inl heq => exact .inr (.inr (.inr (heq ▸ hnone)))
    | inr hin => exact ih hin

end Agenda

def PollerEpoll.owner (x : PollerEpoll) (e : Option Nat × UInt32) : Option (Nat × UInt32) :=
  e.1.bind fun ch => (x.channels[ch]?.map Channel.id_).map fun id => (id, e.2)

def PollerEpoll.waiting (x : PollerEpoll) : List (Nat × UInt32) :=
  (x.activeEvs_.take x.lastActive_.toNat).filterMap x.owner

section Turns
variable {ch : Nat} {fd : Int} {events : UInt32} {opened : Bool} {f : UInt32 → UInt32}

theorem active_of_mem {e : Option Nat × UInt32}
    (he : e ∈ x.activeEvs_.take x.lastActive_.toNat) (hch : e.1 = some ch) :
    ∃ i, Active x i ch := by
  obtain ⟨i, hi⟩ := List.mem_iff_getElem?.mp he
  rw [List.getElem?_take] at hi
  split_ifs at hi with hlt
  exact ⟨i, by omega, by rw [hi, Option.map_some, hch]⟩

theorem waiting_congr (hevs : x'.activeEvs_ = x.activeEvs_) (hlast : x'.lastActive_ = x.lastActive_)
    (hid : ∀ i ch, Active x i ch →
      x'.channels[ch]?.map Channel.id_ = x.channels[ch]?.map Channel.id_) :
    x'.waiting = x.waiting := by
  rw [PollerEpoll.waiting, PollerEpoll.waiting, hevs, hlast]
  refine List.filterMap_congr fun e he => ?_
  rw [PollerEpoll.owner, PollerEpoll.owner]
  cases hptr : e.1 with
  | none => rfl
  | some ch =>
    obtain ⟨i, hactive⟩ := active_of_mem he hptr
    simp only [Option.bind_some, hid i ch hactive]

theorem waiting_newChannel (hx : Sound x) (hnew : ch ∉ x.channels) :
    (x.newChannel ch fd events opened).waiting = x.waiting := by
  refine waiting_congr rfl rfl fun i a ha => ?_
  obtain ⟨c, hc, -⟩ := hx.active i a ha
  have hne : ch ≠ a := fun heq => hnew (mem_iff_get.mpr ⟨c, heq ▸ hc⟩)
  simp only [PollerEpoll.newChannel, PollerEpoll.addChannel, get_insert, if_neg hne]

theorem waiting_written {c : Channel} (c' : Channel) (hc : x.channels[ch]? = some c)
    (hid : c'.id_ = c.id_) (interest : OrdMap Int (Nat × UInt32)) :
    PollerEpoll.waiting { x with channels := x.channels.insert ch c', interest } = x.waiting := by
  refine waiting_congr rfl rfl fun i a _ => ?_
  simp only [get_insert]
  split_ifs with ha
  · rw [← ha, hc, Option.map_some, Option.map_some, hid]
  · rfl

theorem quiet_setHandler {g : Channel → Channel} (hg : ∀ c, (g c).id_ = c.id_)
    (h : PollerEpoll.setHandler g ch x = .ok x') :
    x'.calls = x.calls ∧ x'.waiting = x.waiting := by
  obtain ⟨c, hc, rfl⟩ := setHandler_ok.mp h
  exact ⟨rfl, waiting_written (g c) hc (hg c) x.interest⟩

theorem quiet_enable (h : PollerEpoll.enable f ch x = .ok x') :
    x'.calls = x.calls ∧ x'.waiting = x.waiting := by
  obtain ⟨c, hc, rfl⟩ := enable_ok.mp h
  exact ⟨rfl, waiting_written { c with events_ := f c.events_ } hc rfl _⟩

theorem waiting_free (hx : Sound x) (hclosed : ∀ c ∈ x.channels[ch]?, c.fd_ < 0) :
    (x.free ch).waiting = x.waiting := by
  refine waiting_congr rfl rfl fun i a ha => ?_
  obtain ⟨c, hc, h0⟩ := hx.active i a ha
  have hne : ch ≠ a := by
    intro heq
    have := hclosed c (heq ▸ hc)
    omega
  rw [PollerEpoll.free, get_erase, if_neg hne]

theorem waiting_close (hx : Sound x) {c : Channel} (hc : x.channels[ch]? = some c) :
    PollerEpoll.waiting { x.removeChannel ch with
      interest := x.interest.erase c.fd_
      channels := x.channels.insert ch { c with fd_ := -1 }
      calls := x.calls ++ [.closing c.id_] } = x.waiting.filter fun e => e.1 ≠ c.id_ := by
  have hentries : (x.removeChannel ch).activeEvs_.take x.lastActive_.toNat =
      (x.activeEvs_.take x.lastActive_.toNat).map (clear ch) := by
    apply List.ext_getElem?
    intro i
    rw [List.getElem?_map, List.getElem?_take, List.getElem?_take]
    split_ifs with hi
    · exact hx.forget_entry ch (by omega)
    · rfl
  rw [PollerEpoll.waiting, PollerEpoll.waiting, List.filter_filterMap]
  simp only
  rw [show (x.removeChannel ch).lastActive_ = x.lastActive_ from rfl, hentries,
    List.filterMap_map]
  refine List.filterMap_congr fun e he => ?_
  simp only [Function.comp_apply, PollerEpoll.owner]
  cases hptr : e.1 with
  | none => simp [clear, hptr]
  | some a =>
    obtain ⟨i, hactive⟩ := active_of_mem he hptr
    obtain ⟨d, hd, -⟩ := hx.active i a hactive
    by_cases ha : a = ch
    · subst ha
      simp [clear, hptr, hc, Option.filter]
    · have hne : d.id_ ≠ c.id_ := fun heq => ha (hx.distinct a ch d c hd hc heq)
      have hkeep : clear ch e = e := by simp [clear, hptr, ha]
      simp [hkeep, hptr, get_insert, Ne.symm ha, hd, hne, Option.filter]

theorem waiting_round (hx : Sound x) (h : x.round = .ok x') : ∃ calls,
    x'.calls = x.calls ++ calls ∧ Serves calls x.waiting.reverse x'.waiting.reverse := by
  obtain ⟨calls, rfl, ⟨h0, rfl⟩ | ⟨h0, hround⟩⟩ := round_ok h
  · refine ⟨[], rfl, ?_⟩
    have hnone : ∀ n : Int, n ≤ 0 → x.activeEvs_.take n.toNat = [] := by
      intro n hn
      rw [Int.toNat_of_nonpos hn, List.take_zero]
    rw [PollerEpoll.waiting, PollerEpoll.waiting, hnone _ h0, hnone _ (by simp only; omega)]
    exact .done []
  · obtain ⟨e, he, -⟩ := hx.next_entry h0
    have hlast : x.lastActive_.toNat = (x.lastActive_ - 1).toNat + 1 := by omega
    have hsplit : x.waiting = PollerEpoll.waiting { x with
        lastActive_ := x.lastActive_ - 1, calls := x.calls ++ calls } ++ (x.owner e).toList := by
      have hlater : PollerEpoll.waiting { x with
          lastActive_ := x.lastActive_ - 1, calls := x.calls ++ calls } =
            (x.activeEvs_.take (x.lastActive_ - 1).toNat).filterMap x.owner := rfl
      rw [hlater, PollerEpoll.waiting, hlast, List.take_add_one, he, List.filterMap_append]
      congr 1
    refine ⟨calls, rfl, ?_⟩
    rw [hsplit, List.reverse_append]
    obtain ⟨events, hnull, rfl⟩ | ⟨ch, events, c, hentry, hc, rfl⟩ := hround
    · rw [he] at hnull
      cases hnull
      exact .done _
    · rw [he] at hentry
      cases hentry
      simp only [PollerEpoll.owner, Option.bind_some, hc, Option.map_some, Option.toList_some,
        List.reverse_singleton]
      cases hcall : callFor c.id_ events with
      | none => exact .unheard hcall (.done _)
      | some call => exact .handled hcall (.done _)

def PollerEpoll.reported (ready : List (Int × UInt32)) (x : PollerEpoll) :
    List (Nat × UInt32) :=
  ready.filterMap fun p =>
    (x.interest[p.1]?.bind fun q => x.channels[q.1]?).map fun c => (c.id_, p.2)

theorem waiting_epoll_wait (ready : List (Int × UInt32)) (x : PollerEpoll) :
    (x.epoll_wait ready).waiting = x.reported ready := by
  simp only [PollerEpoll.waiting, PollerEpoll.reported, PollerEpoll.epoll_wait, Int.toNat_natCast]
  rw [List.take_of_length_le (by simp), List.filterMap_map]
  refine List.filterMap_congr fun p _ => ?_
  simp only [Function.comp_apply, PollerEpoll.owner]
  cases x.interest[p.1]? with
  | none => rfl
  | some q => simp [Function.comp_def]

theorem reported_nodup (hx : Sound x) {ready : List (Int × UInt32)}
    (hnd : (ready.map Prod.fst).Nodup) : ((x.reported ready).map Prod.fst).Nodup := by
  have hfd : ∀ (p : Int × UInt32) (e : Nat × UInt32),
      ((x.interest[p.1]?.bind fun q => x.channels[q.1]?).map fun c => (c.id_, p.2)) = some e →
        ∃ (ch : Nat) (c : Channel), x.channels[ch]? = some c ∧ c.fd_ = p.1 ∧ c.id_ = e.1 := by
    intro p e he
    obtain ⟨c, hc, rfl⟩ := Option.map_eq_some_iff.mp he
    obtain ⟨⟨ch, events⟩, hq, hch⟩ := Option.bind_eq_some_iff.mp hc
    obtain ⟨c', hc', -, hfd, -⟩ := hx.watched p.1 ch events hq
    rw [hch] at hc'
    cases hc'
    exact ⟨ch, c, hch, hfd, rfl⟩
  rw [PollerEpoll.reported, List.Nodup, List.pairwise_map, List.pairwise_filterMap]
  rw [List.Nodup, List.pairwise_map] at hnd
  refine hnd.imp fun {p p'} hne e he e' he' heq => hne ?_
  obtain ⟨ch, c, hc, hfdc, hid⟩ := hfd p e he
  obtain ⟨ch', c', hc', hfdc', hid'⟩ := hfd p' e' he'
  have hsame : ch = ch' := hx.distinct ch ch' c c' hc hc' (hid.trans (heq.trans hid'.symm))
  rw [← hsame, hc] at hc'
  cases hc'
  exact hfdc.symm.trans hfdc'

def Action.inTurn : Action → Bool
  | .wait _ => false
  | .interrupted => false
  | _ => true

theorem serves_step (hx : Sound x) (ha : Allowed action x) (hturn : action.inTurn = true)
    (h : step action x = .ok x') : ∃ calls,
      x'.calls = x.calls ++ calls ∧ Serves calls x.waiting.reverse x'.waiting.reverse := by
  have hquiet : x'.calls = x.calls ∧ x'.waiting = x.waiting → ∃ calls,
      x'.calls = x.calls ++ calls ∧ Serves calls x.waiting.reverse x'.waiting.reverse := by
    intro ⟨hcalls, hwaiting⟩
    exact ⟨[], by simp [hcalls], hwaiting ▸ .done _⟩
  cases action with
  | newChannel ch fd events opened =>
    cases h
    exact hquiet ⟨rfl, waiting_newChannel hx ha.1⟩
  | onRead ch =>
    exact hquiet (quiet_setHandler (g := fun c => { c with readcb_ := true }) (fun c => rfl) h)
  | onWrite ch =>
    exact hquiet (quiet_setHandler (g := fun c => { c with writecb_ := true }) (fun c => rfl) h)
  | enableRead enabled ch => exact hquiet (quiet_enable h)
  | enableWrite enabled ch => exact hquiet (quiet_enable h)
  | enableReadWrite readable writable ch =>
    exact hquiet (quiet_enable (f := fun events =>
      setEvent kWriteEvent writable (setEvent kReadEvent readable events)) h)
  | close ch =>
    obtain ⟨c, hc, ⟨-, rfl⟩ | ⟨-, -, rfl⟩⟩ := close_ok.mp h
    · exact hquiet ⟨rfl, rfl⟩
    · refine ⟨[.closing c.id_], rfl, .closing c.id_ ?_⟩
      rw [waiting_close hx hc, List.filter_reverse]
      exact .done _
  | free ch =>
    cases h
    exact hquiet ⟨rfl, waiting_free hx ha⟩
  | wait ready => cases hturn
  | interrupted => cases hturn
  | next => exact waiting_round hx h

theorem serves_run (hx : Sound x) {actions : List Action}
    (hgiven : Meets step Allowed actions x) (hturn : ∀ action ∈ actions, action.inTurn = true)
    (h : run step actions x = .ok y) : ∃ calls,
      y.calls = x.calls ++ calls ∧ Serves calls x.waiting.reverse y.waiting.reverse := by
  induction actions generalizing x with
  | nil =>
    cases h
    exact ⟨[], by simp, .done _⟩
  | cons action actions ih =>
    obtain ⟨x₁, hstep, hrest⟩ := run_cons_ok.mp h
    have hx₁ := sound_step action x x₁ hx hgiven.1 hstep
    obtain ⟨calls₁, hcalls₁, hserve₁⟩ :=
      serves_step hx hgiven.1 (hturn action List.mem_cons_self) hstep
    obtain ⟨calls, hcalls, hserve⟩ := ih hx₁ (hgiven.2 x₁ hstep)
      (fun action hin => hturn action (List.mem_cons_of_mem _ hin)) hrest
    exact ⟨calls₁ ++ calls, by rw [hcalls, hcalls₁, List.append_assoc], hserve₁.append hserve⟩

/-- What a loop comes to when its callers keep to what they may do. -/
def Reached (x : PollerEpoll) : Prop :=
  ∃ actions, Meets step Allowed actions {} ∧ run step actions {} = .ok x

theorem Reached.sound (h : Reached x) : Sound x := by
  obtain ⟨actions, hmeets, hrun⟩ := h
  exact run_inv_of sound_start sound_step hmeets hrun

end Turns

end LazyNet.Poller
