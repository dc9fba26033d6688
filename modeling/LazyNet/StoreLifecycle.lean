import LazyNet.PlanChecks
import LazyNet.StoreLoop

/-! The channel and the socket of one session, from its bind on, under the calls that start and
stop it. -/
namespace LazyNet.Sessions
open LazyNet.Tables LazyNet.StepRuns StoreLoop

inductive StoreCall where
  | startStore
  | stopStore
  deriving DecidableEq, Repr

def StoreCall.task (ses : Nat) : StoreCall → StoreTask
  | .startStore => .attatchToLoop ses
  | .stopStore => .closeUDP ses

def afterStoreCalls (os : Nat → Outcome) (w : StoreLoop) (ses : Nat) (u : List StoreCall) :
    Except StoreFault StoreLoop :=
  run (exec os) (u.map (StoreCall.task ses)) w

def SocketOpen (w : StoreLoop) (ses : Nat) : Prop :=
  ∃ fd : Int, w.descriptors[fd]? = some (some ses)

def HasChannel (w : StoreLoop) (ses c : Nat) : Prop :=
  ∃ channel : Channel, w.channels[c]? = some channel ∧ channel.ses = ses

/-- The calls touched no channel but the session's own, it has one channel at most, and once it
was stopped its socket is closed. -/
def Sound (os : Nat → Outcome) (w : StoreLoop) (ses : Nat) (u : List StoreCall) : Prop :=
  ∃ w', afterStoreCalls os w ses u = .ok w' ∧
    (∀ c c', HasChannel w' ses c → HasChannel w' ses c' → c = c') ∧
    (.stopStore ∈ u → ¬ SocketOpen w' ses)

/-- A start does not follow a start, and a stop comes after one. -/
def InTurn (u : List StoreCall) : StoreCall → Prop
  | .startStore => u.getLast? ≠ some .startStore
  | .stopStore => .startStore ∈ u

structure Untouched (w : StoreLoop) (ses : Nat) : Prop where
  found : (w.sessions ses).channel_ = .null ∨ (w.sessions ses).channel_ = .wild
  no_socket : ¬ SocketOpen w ses
  no_channel : ∀ c, ¬ HasChannel w ses c
  bounded : ∀ c ∈ w.channels, c < w.attached

section Prepare
variable {os : Nat → Outcome} {w w' : StoreLoop} {ses : Nat}

theorem untouched_start (zeroed : Nat → Bool) (others : List Int) (ses : Nat) :
    Untouched (StoreLoop.start zeroed others) ses := by
  refine ⟨?_, fun ⟨fd, hfd⟩ => ?_, fun c ⟨channel, hc, _⟩ => ?_, fun c hc => ?_⟩
  · simp only [StoreLoop.start]
    split_ifs
    · exact .inl rfl
    · exact .inr rfl
  · have hget : (StoreLoop.start zeroed others).descriptors[fd]? =
        ((lastFor id fd others).map fun _ => none).or none :=
      foldl_insert_get id (fun _ => none) others ∅ fd
    rw [hget] at hfd
    cases h : lastFor id fd others <;> simp [h] at hfd
  · simp [StoreLoop.start] at hc
  · simp [StoreLoop.start] at hc

/-- What a task of one session leaves to the others. -/
structure Frame (ses : Nat) (w w' : StoreLoop) : Prop where
  members : ∀ a, a ≠ ses → w'.sessions a = w.sessions a
  sockets : ∀ a, a ≠ ses → SocketOpen w' a → SocketOpen w a
  channels : ∀ a, a ≠ ses → ∀ c, HasChannel w' a c → HasChannel w a c
  bounded : (∀ c ∈ w.channels, c < w.attached) → ∀ c ∈ w'.channels, c < w'.attached

theorem frame_setMembers (w : StoreLoop) (ses : Nat) (x : SessionMembers) :
    Frame ses w (w.setMembers ses x) :=
  ⟨fun _ ha => setMembers_of_ne ha, fun _ _ h => h, fun _ _ _ h => h, fun h => h⟩

theorem frame_bindAddr (outcome : Outcome) (ses : Nat) (w : StoreLoop) :
    Frame ses w (w.bindAddr outcome ses).2 := by
  cases outcome with
  | noSocket errno => exact frame_setMembers w ses _
  | notBound errno => exact frame_setMembers w ses _
  | bound =>
    refine ⟨fun _ ha => setMembers_of_ne ha, fun a ha ⟨fd, hfd⟩ => ?_, fun _ _ _ h => h,
      fun h => h⟩
    simp only [bindAddr, get_insert] at hfd
    split_ifs at hfd
    · cases hfd
      exact absurd rfl ha
    · exact ⟨fd, hfd⟩

theorem bounded_attatchToLoop (h : ∀ c ∈ w.channels, c < w.attached) :
    ∀ c ∈ (w.attatchToLoop ses).channels, c < (w.attatchToLoop ses).attached := by
  intro c hc
  cases Std.ExtTreeMap.mem_insert.mp hc with
  | inl heq => exact (Std.compare_eq_iff_eq.mp heq) ▸ Nat.lt_succ_self _
  | inr hold => exact Nat.lt_succ_of_lt (h c hold)

theorem frame_attatchToLoop (ses : Nat) (w : StoreLoop) : Frame ses w (w.attatchToLoop ses) := by
  refine ⟨fun _ ha => setMembers_of_ne ha, fun _ _ h => h, fun a ha c ⟨channel, hc, hses⟩ => ?_,
    bounded_attatchToLoop⟩
  simp only [attatchToLoop, get_insert] at hc
  split_ifs at hc
  · cases hc
    exact absurd hses.symm ha
  · exact ⟨channel, hc, hses⟩

/-- The two ways in which a close completes: there was nothing to close, or the channel is
deleted, and with it its descriptor is closed. -/
theorem closeUDP_cases (h : w.closeUDP ses = .ok w') :
    ((w.sessions ses).channel_ = .null ∧ w' = w) ∨
    ∃ c channel, (w.sessions ses).channel_ = .to c ∧ w.channels[c]? = some channel ∧
      w' = { w.setMembers ses { w.sessions ses with channel_ := .null } with
        channels := w.channels.erase c
        descriptors :=
          if 0 ≤ channel.fd_ then w.descriptors.erase channel.fd_ else w.descriptors } := by
  simp only [closeUDP] at h
  split at h
  case h_1 hnull =>
    cases h
    exact .inl ⟨hnull, rfl⟩
  case h_2 => cases h
  case h_3 c hto =>
    split at h
    · cases h
    case h_2 channel hc =>
      cases h
      exact .inr ⟨c, channel, hto, hc, rfl⟩

theorem get_of_closed {fd fd' : Int} {k : Option Nat} {t : OrdMap Int (Option Nat)}
    (h : (if 0 ≤ fd then t.erase fd else t)[fd']? = some k) : t[fd']? = some k := by
  split_ifs at h
  · rw [get_erase] at h
    split_ifs at h
    exact h
  · exact h

theorem get_of_erased {c c' : Nat} {channel : Channel}
    (h : (w.channels.erase c)[c']? = some channel) : w.channels[c']? = some channel := by
  rw [get_erase] at h
  split_ifs at h
  exact h

theorem frame_closeUDP (h : w.closeUDP ses = .ok w') : Frame ses w w' := by
  obtain ⟨-, rfl⟩ | ⟨c, channel, -, hc, rfl⟩ := closeUDP_cases h
  · exact ⟨fun _ _ => rfl, fun _ _ h => h, fun _ _ _ h => h, fun h => h⟩
  · refine ⟨fun _ ha => setMembers_of_ne ha, fun a _ ⟨fd, hfd⟩ => ⟨fd, get_of_closed hfd⟩,
      fun a _ c' ⟨channel', hc', hses⟩ => ⟨channel', get_of_erased hc', hses⟩, fun h c' hc' => ?_⟩
    exact h c' (Std.ExtTreeMap.mem_erase.mp hc').2

theorem frame_exec {task : StoreTask} (h : exec os task w = .ok w') : Frame task.ses w w' := by
  cases task with
  | bindAddr ses =>
    cases h
    exact frame_bindAddr (os ses) ses w
  | attatchToLoop ses =>
    cases h
    exact frame_attatchToLoop ses w
  | closeUDP ses => exact frame_closeUDP h
  | addOutStream ses addr =>
    cases h
    exact frame_setMembers w ses _
  | removeOutStream ses addr =>
    cases h
    exact frame_setMembers w ses _

theorem Untouched.exec (h : Untouched w ses) {task : StoreTask} (ht : task.ses ≠ ses)
    (hw : exec os task w = .ok w') : Untouched w' ses := by
  have hf := frame_exec hw
  exact ⟨by rw [hf.members _ ht.symm]; exact h.found,
    fun hs => h.no_socket (hf.sockets _ ht.symm hs),
    fun c hc => h.no_channel c (hf.channels _ ht.symm c hc), hf.bounded h.bounded⟩

theorem Untouched.run {before : List StoreTask} (h : Untouched w ses)
    (hb : ∀ t ∈ before, t.ses ≠ ses) (hw : StepRuns.run (StoreLoop.exec os) before w = .ok w') :
    Untouched w' ses := by
  induction before generalizing w with
  | nil =>
    cases hw
    exact h
  | cons t before ih =>
    obtain ⟨w₁, hstep, hrest⟩ := run_cons_ok.mp hw
    exact ih (h.exec (hb t List.mem_cons_self) hstep)
      (fun t' ht' => hb t' (List.mem_cons_of_mem _ ht')) hrest

structure ChannelsOwned (w : StoreLoop) : Prop where
  own : ∀ (n c : Nat), (w.sessions n).channel_ = .to c → HasChannel w n c
  bounded : ∀ c ∈ w.channels, c < w.attached

theorem channelsOwned_start (zeroed : Nat → Bool) (others : List Int) :
    ChannelsOwned (StoreLoop.start zeroed others) := by
  refine ⟨fun n c hto => ?_, fun c hc => ?_⟩
  · simp only [StoreLoop.start] at hto
    split_ifs at hto
  · simp [StoreLoop.start] at hc

theorem ChannelsOwned.congr (h : ChannelsOwned w) (hchannels : w'.channels = w.channels)
    (hattached : w'.attached = w.attached)
    (hmembers : ∀ n, (w'.sessions n).channel_ = (w.sessions n).channel_) : ChannelsOwned w' := by
  refine ⟨fun n c hto => ?_, fun c hc => ?_⟩
  · rw [hmembers] at hto
    rw [HasChannel, hchannels]
    exact h.own n c hto
  · rw [hchannels] at hc
    rw [hattached]
    exact h.bounded c hc

theorem channel_setMembers {x : SessionMembers} (hx : x.channel_ = (w.sessions ses).channel_)
    (n : Nat) : ((w.setMembers ses x).sessions n).channel_ = (w.sessions n).channel_ := by
  by_cases hn : n = ses
  · subst hn
    rw [setMembers_self, hx]
  · rw [setMembers_of_ne hn]

theorem channel_bindAddr (outcome : Outcome) (ses : Nat) (w : StoreLoop) (n : Nat) :
    ((w.bindAddr outcome ses).2.sessions n).channel_ = (w.sessions n).channel_ := by
  cases outcome <;> exact channel_setMembers (by rfl) n

theorem ChannelsOwned.attatchToLoop (h : ChannelsOwned w) (ses : Nat) :
    ChannelsOwned (w.attatchToLoop ses) := by
  refine ⟨fun n c hto => ?_, bounded_attatchToLoop h.bounded⟩
  by_cases hn : n = ses
  · subst hn
    rw [StoreLoop.attatchToLoop, setMembers_self] at hto
    cases hto
    exact ⟨{ ses := n, fd_ := (w.sessions n).fd_ }, by simp [StoreLoop.attatchToLoop], rfl⟩
  · have hold : (w.sessions n).channel_ = .to c := by
      rw [← (frame_attatchToLoop ses w).members n hn]
      exact hto
    obtain ⟨channel, hc, hses⟩ := h.own n c hold
    have hlt : c < w.attached := h.bounded c (mem_iff_get.mpr ⟨channel, hc⟩)
    refine ⟨channel, ?_, hses⟩
    simp only [StoreLoop.attatchToLoop, get_insert]
    rw [if_neg (Nat.ne_of_gt hlt)]
    exact hc

theorem ChannelsOwned.closeUDP (h : ChannelsOwned w) (hw : w.closeUDP ses = .ok w') :
    ChannelsOwned w' := by
  have hf := frame_closeUDP hw
  obtain ⟨-, rfl⟩ | ⟨c, channel, hto, hc, rfl⟩ := closeUDP_cases hw
  · exact h
  · refine ⟨fun n c' hto' => ?_, hf.bounded h.bounded⟩
    have hn : n ≠ ses := by
      intro heq
      subst heq
      simp at hto'
    rw [hf.members n hn] at hto'
    obtain ⟨channel', hc', hses'⟩ := h.own n c' hto'
    obtain ⟨own, hown, hses⟩ := h.own ses c hto
    have hne : c ≠ c' := by
      intro heq
      subst heq
      cases hown.symm.trans hc'
      exact hn (hses'.symm.trans hses)
    exact ⟨channel', by rw [get_erase, if_neg hne]; exact hc', hses'⟩

theorem ChannelsOwned.exec (h : ChannelsOwned w) {task : StoreTask}
    (hw : exec os task w = .ok w') : ChannelsOwned w' := by
  cases task with
  | bindAddr ses =>
    cases hw
    refine h.congr ?_ ?_ (channel_bindAddr (os ses) ses w)
    · cases os ses <;> rfl
    · cases os ses <;> rfl
  | attatchToLoop ses =>
    cases hw
    exact h.attatchToLoop ses
  | closeUDP ses => exact h.closeUDP hw
  | addOutStream ses addr =>
    cases hw
    exact h.congr rfl rfl (channel_setMembers rfl)
  | removeOutStream ses addr =>
    cases hw
    exact h.congr rfl rfl (channel_setMembers rfl)

def NoneWild (w : StoreLoop) : Prop := ∀ n, (w.sessions n).channel_ ≠ .wild

theorem NoneWild.update (h : NoneWild w) (hf : ∀ a, a ≠ ses → w'.sessions a = w.sessions a)
    (hses : (w'.sessions ses).channel_ ≠ .wild) : NoneWild w' := by
  intro n
  by_cases hn : n = ses
  · rw [hn]
    exact hses
  · rw [hf n hn]
    exact h n

theorem NoneWild.exec (h : NoneWild w) (ho : ChannelsOwned w) (os : Nat → Outcome)
    (task : StoreTask) : ∃ w', exec os task w = .ok w' ∧ NoneWild w' := by
  cases task with
  | bindAddr ses =>
    refine ⟨_, rfl, fun n => ?_⟩
    rw [channel_bindAddr]
    exact h n
  | attatchToLoop ses =>
    refine ⟨_, rfl, h.update (frame_attatchToLoop ses w).members ?_⟩
    simp [StoreLoop.attatchToLoop]
  | closeUDP ses =>
    match hch : (w.sessions ses).channel_ with
    | .null => exact ⟨w, by simp only [StoreLoop.exec, closeUDP, hch], h⟩
    | .wild => exact absurd hch (h ses)
    | .to c =>
      obtain ⟨channel, hc, -⟩ := ho.own ses c hch
      refine ⟨_, by simp only [StoreLoop.exec, closeUDP, hch, hc]; rfl, ?_⟩
      exact h.update (fun a ha => setMembers_of_ne ha) (by simp)
  | addOutStream ses addr =>
    exact ⟨_, rfl, h.update (fun a ha => setMembers_of_ne ha) (by simp [h ses])⟩
  | removeOutStream ses addr =>
    exact ⟨_, rfl, h.update (fun a ha => setMembers_of_ne ha) (by simp [h ses])⟩

theorem NoneWild.run (h : NoneWild w) (ho : ChannelsOwned w) (os : Nat → Outcome)
    (tasks : List StoreTask) : ∃ w', StepRuns.run (StoreLoop.exec os) tasks w = .ok w' := by
  induction tasks generalizing w with
  | nil => exact ⟨w, rfl⟩
  | cons task tasks ih =>
    obtain ⟨w₁, hstep, h₁⟩ := h.exec ho os task
    obtain ⟨w', hrun⟩ := ih h₁ (ho.exec hstep)
    exact ⟨w', run_cons_ok.mpr ⟨w₁, hstep, hrun⟩⟩

end Prepare

/-- Where a bound session stands after some calls, by the last of them. -/
structure Phase (w : StoreLoop) (ses : Nat) (u : List StoreCall) : Prop where
  fd_nonneg : 0 ≤ (w.sessions ses).fd_
  own_fd : ∀ fd : Int, w.descriptors[fd]? = some (some ses) → fd = (w.sessions ses).fd_
  bounded : ∀ c ∈ w.channels, c < w.attached
  bound : u = [] → ((w.sessions ses).channel_ = .null ∨ (w.sessions ses).channel_ = .wild) ∧
    (∀ c, ¬ HasChannel w ses c) ∧ SocketOpen w ses
  started : u.getLast? = some .startStore → ∃ c, (w.sessions ses).channel_ = .to c ∧
    w.channels[c]? = some { ses, fd_ := (w.sessions ses).fd_ } ∧ ∀ c', HasChannel w ses c' → c' = c
  stopped : u.getLast? = some .stopStore →
    (w.sessions ses).channel_ = .null ∧ ∀ c, ¬ HasChannel w ses c
  begun : u ≠ [] → .startStore ∈ u
  closed : .stopStore ∈ u → ¬ SocketOpen w ses

section Calls
variable {os : Nat → Outcome} {w w' : StoreLoop} {ses : Nat} {u : List StoreCall}

theorem Untouched.bind (h : Untouched w ses) :
    Phase (w.bindAddr .bound ses).2 ses [] := by
  refine ⟨?_, fun fd hfd => ?_, h.bounded, fun _ => ⟨?_, h.no_channel, ?_⟩, ?_, ?_,
    fun hne => absurd rfl hne, fun hmem => absurd hmem List.not_mem_nil⟩
  · simp only [bindAddr, setMembers_self]
    exact lowestFree_nonneg w.descriptors
  · simp only [bindAddr, setMembers_self, get_insert] at hfd ⊢
    split_ifs at hfd with heq
    · exact heq.symm
    · exact absurd ⟨fd, hfd⟩ h.no_socket
  · simp only [bindAddr, setMembers_self]
    exact h.found
  · exact ⟨lowestFree w.descriptors, by simp [bindAddr]⟩
  · intro hlast
    cases hlast
  · intro hlast
    cases hlast

theorem Phase.no_channel (h : Phase w ses u) (hlast : u.getLast? ≠ some .startStore) :
    ∀ c, ¬ HasChannel w ses c := by
  cases hu : u.getLast? with
  | none => exact (h.bound (List.getLast?_eq_none_iff.mp hu)).2.1
  | some call =>
    cases call with
    | startStore => exact absurd hu hlast
    | stopStore => exact (h.stopped hu).2

theorem Phase.single (h : Phase w ses u) {c c' : Nat} (hc : HasChannel w ses c)
    (hc' : HasChannel w ses c') : c = c' := by
  by_cases hlast : u.getLast? = some .startStore
  · obtain ⟨c₀, -, -, honly⟩ := h.started hlast
    rw [honly c hc, honly c' hc']
  · exact absurd hc (h.no_channel hlast c)

theorem hasChannel_attatchToLoop {c : Nat} : HasChannel (w.attatchToLoop ses) ses c ↔
    c = w.attached ∨ HasChannel w ses c ∧ c ≠ w.attached := by
  simp only [HasChannel, attatchToLoop, get_insert]
  constructor
  · intro ⟨channel, hc, hses⟩
    split_ifs at hc with heq
    · exact .inl heq.symm
    · exact .inr ⟨⟨channel, hc, hses⟩, Ne.symm heq⟩
  · intro h
    cases h with
    | inl heq => exact ⟨_, by rw [if_pos heq.symm], rfl⟩
    | inr h =>
      obtain ⟨⟨channel, hc, hses⟩, hne⟩ := h
      exact ⟨channel, by rw [if_neg (Ne.symm hne)]; exact hc, hses⟩

theorem Phase.startStore (h : Phase w ses u) (hlast : u.getLast? ≠ some .startStore) :
    Phase (w.attatchToLoop ses) ses (u ++ [.startStore]) := by
  have hnone := h.no_channel hlast
  refine ⟨?_, fun fd hfd => ?_, bounded_attatchToLoop h.bounded, fun hnil => ?_, fun _ => ?_,
    fun hstop => ?_, fun _ => ?_, fun hmem hopen => ?_⟩
  · simp only [attatchToLoop, setMembers_self]
    exact h.fd_nonneg
  · simp only [attatchToLoop, setMembers_self]
    exact h.own_fd fd hfd
  · simp at hnil
  · refine ⟨w.attached, ?_, ?_, fun c hc => ?_⟩
    · simp only [attatchToLoop, setMembers_self]
    · simp [attatchToLoop]
    · exact (hasChannel_attatchToLoop.mp hc).resolve_right fun hold => hnone c hold.1
  · simp at hstop
  · exact List.mem_append_right _ List.mem_cons_self
  · have hold : .stopStore ∈ u := by simpa using hmem
    exact h.closed hold hopen

theorem Phase.stopStore (h : Phase w ses u) (hlast : u.getLast? = some .startStore) :
    ∃ w', w.closeUDP ses = .ok w' ∧ Phase w' ses (u ++ [.stopStore]) := by
  obtain ⟨c, hto, hc, honly⟩ := h.started hlast
  have hmem : .startStore ∈ u := List.mem_of_getLast? hlast
  refine ⟨_, by simp only [closeUDP, hto, hc]; rfl, ?_⟩
  have hclosed : ∀ fd : Int, (w.descriptors.erase (w.sessions ses).fd_)[fd]? ≠
      some (some ses) := by
    intro fd hfd
    rw [get_erase] at hfd
    split_ifs at hfd with hne
    exact hne (h.own_fd fd hfd).symm
  have hnone : ∀ c', ¬ HasChannel { w with channels := w.channels.erase c } ses c' := by
    intro c' ⟨channel, hc', hses⟩
    simp only [get_erase] at hc'
    split_ifs at hc' with hne
    exact hne (honly c' ⟨channel, hc', hses⟩).symm
  refine ⟨?_, fun fd hfd => ?_, fun c' hc' => ?_, fun hnil => ?_, fun hstart => ?_, fun _ => ?_,
    fun _ => List.mem_append_left _ hmem, fun _ ⟨fd, hfd⟩ => ?_⟩
  · simp only [setMembers_self]
    exact h.fd_nonneg
  · simp only [if_pos h.fd_nonneg] at hfd
    exact absurd hfd (hclosed fd)
  · exact h.bounded c' (Std.ExtTreeMap.mem_erase.mp hc').2
  · simp at hnil
  · simp at hstart
  · exact ⟨by simp only [setMembers_self], hnone⟩
  · simp only [if_pos h.fd_nonneg] at hfd
    exact hclosed fd hfd

theorem Phase.stopStore_again (h : Phase w ses u) (hlast : u.getLast? = some .stopStore) :
    w.closeUDP ses = .ok w ∧ Phase w ses (u ++ [.stopStore]) := by
  obtain ⟨hnull, hnone⟩ := h.stopped hlast
  have hne : u ≠ [] := by
    intro hnil
    rw [hnil] at hlast
    cases hlast
  refine ⟨by simp only [closeUDP, hnull], h.fd_nonneg, h.own_fd, h.bounded, fun hnil => ?_,
    fun hstart => ?_, fun _ => ⟨hnull, hnone⟩, fun _ => List.mem_append_left _ (h.begun hne),
    fun _ => h.closed (List.mem_of_getLast? hlast)⟩
  · simp at hnil
  · simp at hstart

theorem Phase.sound (h : Phase w' ses u) (hw : afterStoreCalls os w ses u = .ok w') :
    Sound os w ses u := ⟨w', hw, fun _ _ => h.single, h.closed⟩

theorem afterStoreCalls_snoc (hw : afterStoreCalls os w ses u = .ok w') (call : StoreCall)
    {w'' : StoreLoop} : afterStoreCalls os w ses (u ++ [call]) = .ok w'' ↔
      exec os (call.task ses) w' = .ok w'' := by
  rw [afterStoreCalls, List.map_append, List.map_singleton, run_snoc_ok]
  constructor
  · intro ⟨m, hm, hstep⟩
    cases hw.symm.trans hm
    exact hstep
  · exact fun hstep => ⟨w', hw, hstep⟩

theorem Phase.step (h : Phase w ses u) {call : StoreCall} (hc : InTurn u call) :
    ∃ w', exec os (call.task ses) w = .ok w' ∧ Phase w' ses (u ++ [call]) := by
  cases call with
  | startStore => exact ⟨_, rfl, h.startStore hc⟩
  | stopStore =>
    cases hu : u.getLast? with
    | none =>
      rw [List.getLast?_eq_none_iff.mp hu] at hc
      exact absurd hc List.not_mem_nil
    | some last =>
      cases last with
      | startStore => exact h.stopStore hu
      | stopStore => exact ⟨w, h.stopStore_again hu⟩

/-- A second start leaves the first channel behind, and a stop before any start has no channel
to close or takes what it finds for one. -/
theorem Phase.not_sound (h : Phase w' ses u) (hw : afterStoreCalls os w ses u = .ok w')
    {call : StoreCall} (hc : ¬ InTurn u call) : ¬ Sound os w ses (u ++ [call]) := by
  intro ⟨w'', hrun, hsingle, hclosed⟩
  have hstep := (afterStoreCalls_snoc hw call).mp hrun
  cases call with
  | startStore =>
    have hlast : u.getLast? = some .startStore := not_not.mp hc
    obtain ⟨c, -, hget, -⟩ := h.started hlast
    have hlt : c < w'.attached := h.bounded c (mem_iff_get.mpr ⟨_, hget⟩)
    cases hstep
    have heq := hsingle w'.attached c (hasChannel_attatchToLoop.mpr (.inl rfl))
      (hasChannel_attatchToLoop.mpr (.inr ⟨⟨_, hget, rfl⟩, Nat.ne_of_lt hlt⟩))
    exact absurd heq (Nat.ne_of_gt hlt)
  | stopStore =>
    have hnil : u = [] := by
      by_contra hne
      exact hc (h.begun hne)
    obtain ⟨hfound, -, hopen⟩ := h.bound hnil
    have hclose : w'.closeUDP ses = .ok w'' := hstep
    obtain ⟨-, rfl⟩ | ⟨c, channel, hto, -⟩ := closeUDP_cases hclose
    · exact hclosed (List.mem_append_right _ List.mem_cons_self) hopen
    · rw [hto] at hfound
      cases hfound with
      | inl hnull => cases hnull
      | inr hwild => cases hwild

end Calls

/-- The calls on a session that was bound, whatever ran on the loop before: all goes well with
them exactly when no start follows a start and no stop comes before the first start. -/
theorem lifecycle_iff {os : Nat → Outcome} {zeroed : Nat → Bool} {others : List Int}
    {before : List StoreTask} {ses : Nat} {w : StoreLoop} (hbefore : ∀ t ∈ before, t.ses ≠ ses)
    (hbound : os ses = .bound)
    (hw : run (exec os) (before ++ [.bindAddr ses]) (StoreLoop.start zeroed others) = .ok w)
    (calls : List StoreCall) :
    (∀ u, u <+: calls → Sound os w ses u) ↔
      ∀ u call, u ++ [call] <+: calls → InTurn u call := by
  obtain ⟨w₀, hrun, hbind⟩ := run_snoc_ok.mp hw
  have hphase : Phase w ses [] := by
    simp only [exec, hbound, Except.ok.injEq] at hbind
    rw [← hbind]
    exact ((untouched_start zeroed others ses).run hbefore hrun).bind
  have hstart : afterStoreCalls os w ses [] = .ok w := rfl
  refine prefix_iff (fun u => ∃ w', afterStoreCalls os w ses u = .ok w' ∧ Phase w' ses u) calls
    (hphase.sound hstart) ⟨w, hstart, hphase⟩ ?_ ?_
  · intro u call _ ⟨w', hw', h⟩
    constructor
    · intro hsound
      by_contra hc
      exact h.not_sound hw' hc hsound
    · intro hc
      obtain ⟨w'', hstep, h'⟩ := h.step hc
      exact h'.sound ((afterStoreCalls_snoc hw' call).mpr hstep)
  · intro u call _ ⟨w', hw', h⟩ hsound
    have hc : InTurn u call := by
      by_contra hc
      exact h.not_sound hw' hc hsound
    obtain ⟨w'', hstep, h'⟩ := h.step hc
    exact ⟨w'', (afterStoreCalls_snoc hw' call).mpr hstep, h'⟩

theorem lifecycle_iff_second_session :
    (∀ u, u <+: [.startStore, .stopStore] → Sound (fun _ => .bound)
      (((StoreLoop.start (fun _ => false) [0, 1, 2]).bindAddr .bound 0).2.bindAddr .bound 1).2 1
        u) ↔
      ∀ u call, u ++ [call] <+: [.startStore, .stopStore] → InTurn u call :=
  lifecycle_iff (show ∀ t ∈ [StoreTask.bindAddr 0], t.ses ≠ 1 by decide) rfl rfl _

/-- An invite that fails has its session stopped before it was started: the socket stays open, or
the close goes to whatever `channel_` holds. An answer that comes twice starts it twice. -/
theorem session_mishandled :
    ((run (Streams.step fun _ => 0) [.update (Streams.mondayPlan "a" 9), .check 1 9,
      .ack "a" 0 0 1] {}).map fun m => m.sesServicePtr_.storeLoop_) =
        .ok [.bindAddr 0, .closeUDP 0] ∧
    ¬ Sound (fun _ => .bound)
      ((StoreLoop.start (fun _ => true) []).bindAddr .bound 0).2 0 [.stopStore] ∧
    ¬ Sound (fun _ => .bound)
      ((StoreLoop.start (fun _ => false) []).bindAddr .bound 0).2 0 [.stopStore] ∧
    ((run (Streams.step fun _ => 0) [.update (Streams.mondayPlan "a" 9), .check 1 9,
      .ack "a" 1 2 0, .ack "a" 1 2 0] {}).map fun m => m.sesServicePtr_.storeLoop_) =
        .ok [.bindAddr 0, .attatchToLoop 0, .attatchToLoop 0] ∧
    ¬ Sound (fun _ => .bound)
      ((StoreLoop.start (fun _ => true) []).bindAddr .bound 0).2 0 [.startStore, .startStore] := by
  have bound : ∀ zeroed, Phase ((StoreLoop.start zeroed []).bindAddr .bound 0).2 0 [] :=
    fun zeroed => (untouched_start zeroed [] 0).bind
  have no_start : ¬ InTurn [] .stopStore := List.not_mem_nil
  have again : ¬ InTurn [.startStore] .startStore := fun h => h rfl
  exact ⟨by decide, (bound _).not_sound rfl no_start, (bound _).not_sound rfl no_start,
    by decide, ((bound _).startStore (by simp)).not_sound rfl again⟩

end LazyNet.Sessions
