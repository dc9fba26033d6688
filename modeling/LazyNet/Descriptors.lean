import LazyNet.StoreLifecycle
import Mathlib.Data.List.Perm.Subperm

/-! Which session has which descriptor. The system gives a number out again once it is closed,
and a session keeps in `fd_` the number of a socket that it has no longer. -/
namespace LazyNet.Sessions
open LazyNet.Tables LazyNet.StepRuns StoreLoop

def OwnsSocket (w : StoreLoop) (n : Nat) : Prop :=
  w.descriptors[(w.sessions n).fd_]? = some (some n)

/-- A read callback of the session `n` would take datagrams that were sent to `m`. -/
def Reads (w : StoreLoop) (n m : Nat) : Prop :=
  ∃ (c : Nat) (channel : Channel), (w.sessions n).channel_ = .to c ∧
    w.channels[c]? = some channel ∧ w.descriptors[channel.fd_]? = some (some m)

structure Apart (w : StoreLoop) : Prop where
  fd_own : ∀ (c c' : Nat) (channel channel' : Channel), w.channels[c]? = some channel →
    w.channels[c']? = some channel' → channel.fd_ = channel'.fd_ → channel.ses = channel'.ses
  reads_own : ∀ n m, Reads w n m → m = n

/-- Once the tasks `u` have run, no descriptor serves two sessions; and if the last of them
attached a channel, its session had the descriptor open. -/
def Separate (os : Nat → Outcome) (w₀ : StoreLoop) (u : List StoreTask) : Prop :=
  ∀ w, run (exec os) u w₀ = .ok w → Apart w ∧
    ∀ v n, u = v ++ [.attatchToLoop n] → ∀ w', run (exec os) v w₀ = .ok w' → OwnsSocket w' n

/-- What the tasks of a session amount to since its last bind: that failed or the socket was
closed, or it went well, or a channel was attached after it. -/
inductive Hold where
  | nothing
  | bound
  | started
  deriving DecidableEq, Repr

def StoreTask.hold (os : Nat → Outcome) (n : Nat) : StoreTask → Hold → Hold
  | .bindAddr ses, h => if ses = n then if os n = .bound then .bound else .nothing else h
  | .attatchToLoop ses, h => if ses = n ∧ h = .bound then .started else h
  | .closeUDP ses, h => if ses = n ∧ h = .started then .nothing else h
  | .addOutStream _ _, h => h
  | .removeOutStream _ _, h => h

def hold (os : Nat → Outcome) (n : Nat) (u : List StoreTask) : Hold :=
  u.foldl (fun h task => task.hold os n h) .nothing

/-- A channel that its session has lost sight of, by attaching another one. -/
def LeftBehind (w : StoreLoop) (c : Nat) (channel : Channel) : Prop :=
  w.channels[c]? = some channel ∧ (w.sessions channel.ses).channel_ ≠ .to c

/-- A channel is attached when the last bind of the session went well and no channel that was
attached after it has been closed, and no other session left a channel behind on that number. -/
def AttachesOwn (os : Nat → Outcome) (u : List StoreTask) (w : StoreLoop) : StoreTask → Prop
  | .attatchToLoop n => hold os n u ≠ .nothing ∧
    ∀ c channel, LeftBehind w c channel → channel.fd_ = (w.sessions n).fd_ → channel.ses = n
  | _ => True

section Hold
variable {os : Nat → Outcome} {n : Nat} {u : List StoreTask} {task : StoreTask}

theorem hold_snoc : hold os n (u ++ [task]) = task.hold os n (hold os n u) := by
  simp [hold]

theorem hold_other (h : task.ses ≠ n) : hold os n (u ++ [task]) = hold os n u := by
  rw [hold_snoc]
  cases task <;> simp_all [StoreTask.hold, StoreTask.ses]

end Hold

theorem lowestFree_notMem (t : OrdMap Int (Option Nat)) : lowestFree t ∉ t := by
  rw [lowestFree]
  cases h : (List.range (t.size + 1)).find? fun n => Int.ofNat n ∉ t with
  | some n => simpa using List.find?_some h
  | none =>
    have hall : ∀ n ∈ List.range (t.size + 1), Int.ofNat n ∈ t := by
      simpa using h
    have hsub : (List.range (t.size + 1)).map Int.ofNat ⊆ t.toList.map Prod.fst := by
      intro fd hfd
      obtain ⟨n, hn, rfl⟩ := List.mem_map.mp hfd
      exact mem_keys.mpr (hall n hn)
    have hnodup : ((List.range (t.size + 1)).map Int.ofNat).Nodup :=
      List.nodup_range.map fun a b hab => Int.ofNat.inj hab
    have hlen := (List.Nodup.subperm hnodup hsub).length_le
    rw [List.length_map, List.length_map, List.length_range, Std.ExtTreeMap.length_toList] at hlen
    exact absurd hlen (Nat.not_succ_le_self t.size)

/-- What separate sessions are left with: a current channel is on a socket of its session, and
`fd_` names one exactly when the tasks say so. -/
structure Kept (os : Nat → Outcome) (u : List StoreTask) (w : StoreLoop) : Prop where
  channels : ChannelsOwned w
  fd_nonneg : ∀ (fd : Int) (n : Nat), w.descriptors[fd]? = some (some n) → 0 ≤ fd
  current : ∀ (n c : Nat) (channel : Channel), (w.sessions n).channel_ = .to c →
    w.channels[c]? = some channel → w.descriptors[channel.fd_]? = some (some n)
  owns : ∀ n, OwnsSocket w n ↔ hold os n u ≠ .nothing
  bound : ∀ (n c : Nat) (channel : Channel), hold os n u = .bound →
    (w.sessions n).channel_ = .to c → w.channels[c]? = some channel →
      channel.fd_ ≠ (w.sessions n).fd_
  started : ∀ n, hold os n u = .started → ∃ (c : Nat) (channel : Channel),
    (w.sessions n).channel_ = .to c ∧ w.channels[c]? = some channel ∧
      channel.fd_ = (w.sessions n).fd_

structure KeptFor (os : Nat → Outcome) (u : List StoreTask) (w : StoreLoop) (n : Nat) : Prop where
  current : ∀ (c : Nat) (channel : Channel), (w.sessions n).channel_ = .to c →
    w.channels[c]? = some channel → w.descriptors[channel.fd_]? = some (some n)
  owns : OwnsSocket w n ↔ hold os n u ≠ .nothing
  bound : ∀ (c : Nat) (channel : Channel), hold os n u = .bound →
    (w.sessions n).channel_ = .to c → w.channels[c]? = some channel →
      channel.fd_ ≠ (w.sessions n).fd_
  started : hold os n u = .started → ∃ (c : Nat) (channel : Channel),
    (w.sessions n).channel_ = .to c ∧ w.channels[c]? = some channel ∧
      channel.fd_ = (w.sessions n).fd_

theorem Kept.session {os : Nat → Outcome} {u : List StoreTask} {w : StoreLoop} (h : Kept os u w)
    (n : Nat) : KeptFor os u w n :=
  ⟨h.current n, h.owns n, h.bound n, h.started n⟩

theorem kept_of_each {os : Nat → Outcome} {u : List StoreTask} {w : StoreLoop}
    (hc : ChannelsOwned w)
    (hfd : ∀ (fd : Int) (n : Nat), w.descriptors[fd]? = some (some n) → 0 ≤ fd)
    (h : ∀ n, KeptFor os u w n) : Kept os u w :=
  ⟨hc, hfd, fun n => (h n).current, fun n => (h n).owns, fun n => (h n).bound,
    fun n => (h n).started⟩

theorem KeptFor.frame {os : Nat → Outcome} {u u' : List StoreTask} {w w' : StoreLoop} {n : Nat}
    (h : KeptFor os u w n) (hhold : hold os n u' = hold os n u)
    (hfd : (w'.sessions n).fd_ = (w.sessions n).fd_)
    (hchannel : (w'.sessions n).channel_ = (w.sessions n).channel_)
    (hopen : ∀ fd : Int,
      w'.descriptors[fd]? = some (some n) ↔ w.descriptors[fd]? = some (some n))
    (hcur : ∀ (c : Nat) (channel : Channel), (w.sessions n).channel_ = .to c →
      (w'.channels[c]? = some channel ↔ w.channels[c]? = some channel)) :
    KeptFor os u' w' n := by
  constructor
  · intro c channel hto hc
    rw [hchannel] at hto
    exact (hopen _).mpr (h.current c channel hto ((hcur c channel hto).mp hc))
  · rw [OwnsSocket, hfd, hopen, hhold]
    exact h.owns
  · intro c channel hh hto hc
    rw [hhold] at hh
    rw [hchannel] at hto
    rw [hfd]
    exact h.bound c channel hh hto ((hcur c channel hto).mp hc)
  · intro hh
    rw [hhold] at hh
    obtain ⟨c, channel, hto, hc, heq⟩ := h.started hh
    exact ⟨c, channel, hchannel.trans hto, (hcur c channel hto).mpr hc, heq.trans hfd.symm⟩

theorem kept_start (os : Nat → Outcome) (zeroed : Nat → Bool) (others : List Int) :
    Kept os [] (StoreLoop.start zeroed others) := by
  have closed : ∀ (fd : Int) (n : Nat),
      (StoreLoop.start zeroed others).descriptors[fd]? ≠ some (some n) :=
    fun fd n hfd => (untouched_start zeroed others n).no_socket ⟨fd, hfd⟩
  have unattached : ∀ (n c : Nat),
      ((StoreLoop.start zeroed others).sessions n).channel_ ≠ .to c := by
    intro n c hto
    obtain ⟨channel, hc, -⟩ := (channelsOwned_start zeroed others).own n c hto
    simp [StoreLoop.start] at hc
  refine ⟨channelsOwned_start zeroed others, fun fd n hfd => absurd hfd (closed fd n),
    fun n c channel hto => absurd hto (unattached n c), fun n => ?_,
    fun n c channel hh => ?_, fun n hh => ?_⟩
  · exact ⟨fun ho => absurd ho (closed _ n), fun hne => absurd rfl hne⟩
  · cases hh
  · cases hh

section Tasks
variable {os : Nat → Outcome} {u : List StoreTask} {w w' : StoreLoop} {ses n : Nat}

theorem held_bindAddr {outcome : Outcome} {fd : Int} {k : Option Nat}
    (h : w.descriptors[fd]? = some k) :
    (w.bindAddr outcome ses).2.descriptors[fd]? = some k := by
  cases outcome with
  | noSocket errno => exact h
  | notBound errno => exact h
  | bound =>
    have hne : lowestFree w.descriptors ≠ fd := by
      intro heq
      exact lowestFree_notMem w.descriptors (heq ▸ mem_iff_get.mpr ⟨k, h⟩)
    simp only [bindAddr, get_insert, if_neg hne]
    exact h

theorem held_bindAddr_other {outcome : Outcome} (hn : n ≠ ses) {fd : Int} :
    (w.bindAddr outcome ses).2.descriptors[fd]? = some (some n) ↔
      w.descriptors[fd]? = some (some n) := by
  refine ⟨fun h => ?_, held_bindAddr⟩
  cases outcome with
  | noSocket errno => exact h
  | notBound errno => exact h
  | bound =>
    simp only [bindAddr, get_insert] at h
    split_ifs at h
    · cases h
      exact absurd rfl hn
    · exact h

theorem ownsSocket_bindAddr (h : Kept os u w) (outcome : Outcome) :
    OwnsSocket (w.bindAddr outcome ses).2 ses ↔ outcome = .bound := by
  cases outcome with
  | noSocket errno =>
    simp only [OwnsSocket, bindAddr, setMembers_self, setMembers_descriptors, reduceCtorEq,
      iff_false]
    exact fun hfd => absurd (h.fd_nonneg (-1) ses hfd) (by decide)
  | notBound errno =>
    simp only [OwnsSocket, bindAddr, setMembers_self, setMembers_descriptors, reduceCtorEq,
      iff_false]
    exact fun hfd => lowestFree_notMem _ (mem_iff_get.mpr ⟨_, hfd⟩)
  | bound => simp [OwnsSocket, bindAddr]

theorem bindAddr_channels (outcome : Outcome) (ses : Nat) (w : StoreLoop) :
    (w.bindAddr outcome ses).2.channels = w.channels := by
  cases outcome <;> rfl

theorem Kept.bindAddr (h : Kept os u w) (ses : Nat) :
    Kept os (u ++ [.bindAddr ses]) (w.bindAddr (os ses) ses).2 := by
  have hself : hold os ses (u ++ [.bindAddr ses]) =
      if os ses = .bound then .bound else .nothing := by
    rw [hold_snoc, StoreTask.hold, if_pos rfl]
  refine kept_of_each (h.channels.exec (show exec os (.bindAddr ses) w = .ok _ from rfl))
    (fun fd a hfd => ?_) fun a => ?_
  · cases ho : os ses with
    | noSocket errno => exact h.fd_nonneg fd a (by rw [ho] at hfd; exact hfd)
    | notBound errno => exact h.fd_nonneg fd a (by rw [ho] at hfd; exact hfd)
    | bound =>
      rw [ho] at hfd
      simp only [StoreLoop.bindAddr, get_insert] at hfd
      split_ifs at hfd with heq
      · exact heq ▸ lowestFree_nonneg w.descriptors
      · exact h.fd_nonneg fd a hfd
  by_cases ha : a = ses
  swap
  · have hmem := (frame_bindAddr (os ses) ses w).members a ha
    exact (h.session a).frame (hold_other (Ne.symm ha)) (by rw [hmem]) (by rw [hmem])
      (fun fd => held_bindAddr_other ha) fun c channel _ => by rw [bindAddr_channels]
  subst ha
  constructor
  · intro c channel hto hc
    rw [channel_bindAddr] at hto
    rw [bindAddr_channels] at hc
    exact held_bindAddr (h.current a c channel hto hc)
  · rw [ownsSocket_bindAddr h, hself]
    split_ifs with ho <;> simp [ho]
  · intro c channel hh hto hc
    rw [channel_bindAddr] at hto
    rw [bindAddr_channels] at hc
    have ho : os a = .bound := by
      rw [hself] at hh
      split_ifs at hh with ho
      exact ho
    have hopen := h.current a c channel hto hc
    rw [ho]
    simp only [StoreLoop.bindAddr, setMembers_self]
    exact fun heq => lowestFree_notMem w.descriptors (heq ▸ mem_iff_get.mpr ⟨_, hopen⟩)
  · intro hh
    rw [hself] at hh
    split_ifs at hh

/-- Closing the socket of the current channel closes what `fd_` names exactly when the channel
was attached after the last bind. -/
theorem Kept.closed (h : Kept os u w) {c : Nat} {channel : Channel}
    (hto : (w.sessions ses).channel_ = .to c) (hc : w.channels[c]? = some channel) :
    (w.descriptors.erase channel.fd_)[(w.sessions ses).fd_]? = some (some ses) ↔
      hold os ses u = .bound := by
  have howns := h.owns ses
  rw [OwnsSocket] at howns
  rw [get_erase]
  cases hh : hold os ses u with
  | nothing =>
    have hnot := mt howns.mp (by simp [hh])
    split_ifs <;> simp_all
  | bound =>
    have hne := h.bound ses c channel hh hto hc
    rw [if_neg hne, howns, hh]
    simp
  | started =>
    obtain ⟨c', channel', hto', hc', hfd⟩ := h.started ses hh
    cases hto.symm.trans hto'
    cases hc.symm.trans hc'
    simp [hfd]

theorem current_ne (h : ChannelsOwned w) {a c c' : Nat} (ha : a ≠ ses)
    (hto : (w.sessions ses).channel_ = .to c) (hto' : (w.sessions a).channel_ = .to c') :
    c ≠ c' := by
  intro heq
  subst heq
  obtain ⟨own, hown, hses⟩ := h.own ses c hto
  obtain ⟨own', hown', hses'⟩ := h.own a c hto'
  cases hown.symm.trans hown'
  exact ha (hses'.symm.trans hses)

/-- A close takes the socket of the current channel, which is the one `fd_` names when the
channel was attached after the last bind. -/
theorem Kept.closeUDP (h : Kept os u w) (hw : w.closeUDP ses = .ok w') :
    Kept os (u ++ [.closeUDP ses]) w' := by
  have hself : hold os ses (u ++ [.closeUDP ses]) =
      if hold os ses u = .started then .nothing else hold os ses u := by
    rw [hold_snoc, StoreTask.hold]
    simp only [true_and]
  have hchannels := h.channels.closeUDP hw
  obtain ⟨hnull, rfl⟩ | ⟨c, channel, hto, hc, rfl⟩ := closeUDP_cases hw
  · refine kept_of_each h.channels h.fd_nonneg fun a => ?_
    refine (h.session a).frame ?_ rfl rfl (fun _ => Iff.rfl) fun _ _ _ => Iff.rfl
    by_cases ha : a = ses
    · subst ha
      rw [hself, if_neg]
      intro hstarted
      obtain ⟨c, -, hto, -⟩ := h.started a hstarted
      rw [hnull] at hto
      cases hto
    · exact hold_other (Ne.symm ha)
  have hopen := h.current ses c channel hto hc
  simp only [if_pos (h.fd_nonneg _ ses hopen)] at hchannels ⊢
  refine kept_of_each hchannels (fun fd a hfd => ?_) fun a => ?_
  · simp only [get_erase] at hfd
    split_ifs at hfd
    exact h.fd_nonneg fd a hfd
  by_cases ha : a = ses
  swap
  · -- nothing that another session holds is closed
    have hmem : ∀ x : SessionMembers, (w.setMembers ses x).sessions a = w.sessions a :=
      fun x => setMembers_of_ne ha
    refine (h.session a).frame (hold_other (Ne.symm ha)) (by simp only [hmem]) (by simp only [hmem])
      (fun fd => ?_) fun c' channel' hto' => ?_
    · rw [get_erase]
      split_ifs with heq
      · subst heq
        rw [hopen]
        simp [Ne.symm ha]
      · exact Iff.rfl
    · simp only [get_erase, if_neg (current_ne h.channels ha hto hto')]
  subst ha
  constructor
  · intro c' channel' hto'
    simp at hto'
  · simp only [OwnsSocket, setMembers_self]
    rw [h.closed hto hc, hself]
    cases hold os a u <;> simp
  · intro c' channel' _ hto'
    simp at hto'
  · intro hh
    rw [hself] at hh
    split_ifs at hh with hstarted
    exact absurd hh hstarted

theorem get_attached (w : StoreLoop) (ses : Nat) : (w.attatchToLoop ses).channels[w.attached]? =
    some { ses, fd_ := (w.sessions ses).fd_ } := by
  simp [attatchToLoop]

theorem get_attatchToLoop (h : ChannelsOwned w) {c : Nat} {channel : Channel} :
    (w.attatchToLoop ses).channels[c]? = some channel ↔
      c = w.attached ∧ channel = { ses, fd_ := (w.sessions ses).fd_ } ∨
        w.channels[c]? = some channel := by
  simp only [attatchToLoop, get_insert]
  split_ifs with heq
  · subst heq
    constructor
    · intro hc
      cases hc
      exact .inl ⟨rfl, rfl⟩
    · intro hc
      cases hc with
      | inl hnew => rw [hnew.2]
      | inr hold' =>
        exact absurd (h.bounded _ (mem_iff_get.mpr ⟨_, hold'⟩)) (Nat.lt_irrefl _)
  · exact ⟨.inr, fun hc => hc.resolve_left fun hnew => heq hnew.1.symm⟩

theorem Kept.attatchToLoop (h : Kept os u w) (hown : OwnsSocket w ses) :
    Kept os (u ++ [.attatchToLoop ses]) (w.attatchToLoop ses) := by
  have hself : hold os ses (u ++ [.attatchToLoop ses]) = .started := by
    rw [hold_snoc, StoreTask.hold]
    have hne := (h.owns ses).mp hown
    cases hh : hold os ses u with
    | nothing => exact absurd hh hne
    | bound => simp
    | started => simp
  have hfd : ((w.attatchToLoop ses).sessions ses).fd_ = (w.sessions ses).fd_ := by
    simp [StoreLoop.attatchToLoop]
  have hchannel : ((w.attatchToLoop ses).sessions ses).channel_ = .to w.attached := by
    simp [StoreLoop.attatchToLoop]
  refine kept_of_each (h.channels.attatchToLoop ses) h.fd_nonneg fun a => ?_
  by_cases ha : a = ses
  swap
  · have hmem := (frame_attatchToLoop ses w).members a ha
    refine (h.session a).frame (hold_other (Ne.symm ha)) (by rw [hmem]) (by rw [hmem])
      (fun _ => Iff.rfl) fun c channel hto => ?_
    obtain ⟨channel', hc', -⟩ := h.channels.own a c hto
    have hlt := h.channels.bounded c (mem_iff_get.mpr ⟨channel', hc'⟩)
    rw [get_attatchToLoop h.channels]
    exact or_iff_right fun hnew => absurd hnew.1 (Nat.ne_of_lt hlt)
  subst ha
  constructor
  · intro c channel hto hc
    cases hchannel.symm.trans hto
    cases hc.symm.trans (get_attached w a)
    exact hown
  · rw [OwnsSocket, hfd, hself]
    exact ⟨fun _ => by simp, fun _ => hown⟩
  · intro c channel hh
    rw [hself] at hh
    cases hh
  · exact fun _ => ⟨w.attached, _, hchannel, get_attached w a, hfd.symm⟩

theorem Kept.viewers (h : Kept os u w) {task : StoreTask} {x : SessionMembers}
    (hfd : x.fd_ = (w.sessions ses).fd_) (hx : x.channel_ = (w.sessions ses).channel_)
    (hhold : ∀ a, hold os a (u ++ [task]) = hold os a u) :
    Kept os (u ++ [task]) (w.setMembers ses x) := by
  have fd_eq : ∀ a, ((w.setMembers ses x).sessions a).fd_ = (w.sessions a).fd_ := by
    intro a
    by_cases ha : a = ses
    · rw [ha, setMembers_self, hfd]
    · rw [setMembers_of_ne ha]
  have channel_eq := channel_setMembers hx
  exact kept_of_each (h.channels.congr rfl rfl channel_eq) h.fd_nonneg fun a =>
    (h.session a).frame (hhold a) (fd_eq a) (channel_eq a) (fun _ => Iff.rfl) fun _ _ _ => Iff.rfl

theorem Kept.reads_own (h : Kept os u w) {m : Nat} (hr : Reads w n m) : m = n := by
  obtain ⟨c, channel, hto, hc, hfd⟩ := hr
  cases (h.current n c channel hto hc).symm.trans hfd
  rfl

/-- A channel on a socket of its own session comes next to another session's only where that
one was left behind. -/
theorem apart_attatchToLoop (h : Kept os u w) (ha : Apart w) (hown : OwnsSocket w ses) :
    Apart (w.attatchToLoop ses) ↔ ∀ c channel, LeftBehind w c channel →
      channel.fd_ = (w.sessions ses).fd_ → channel.ses = ses := by
  constructor
  · intro hapart c channel hleft hfd
    exact hapart.fd_own c w.attached channel _ ((get_attatchToLoop h.channels).mpr (.inr hleft.1))
      (get_attached w ses) hfd
  · intro hleft
    have beside : ∀ {c : Nat} {channel : Channel}, w.channels[c]? = some channel →
        channel.fd_ = (w.sessions ses).fd_ → channel.ses = ses := by
      intro c channel hc hfd
      by_cases hto : (w.sessions channel.ses).channel_ = .to c
      · have hopen := h.current channel.ses c channel hto hc
        rw [hfd] at hopen
        cases hopen.symm.trans hown
        rfl
      · exact hleft c channel ⟨hc, hto⟩ hfd
    refine ⟨fun c c' channel channel' hc hc' hfd => ?_,
      fun n m => (h.attatchToLoop hown).reads_own⟩
    cases (get_attatchToLoop h.channels).mp hc with
    | inl hnew =>
      cases (get_attatchToLoop h.channels).mp hc' with
      | inl hnew' => rw [hnew.2, hnew'.2]
      | inr hold' =>
        rw [hnew.2] at hfd ⊢
        exact (beside hold' hfd.symm).symm
    | inr hold' =>
      cases (get_attatchToLoop h.channels).mp hc' with
      | inl hnew' =>
        rw [hnew'.2] at hfd ⊢
        exact beside hold' hfd
      | inr hold'' => exact ha.fd_own c c' channel channel' hold' hold'' hfd

theorem Kept.apart (h : Kept os u w') (ha : Apart w)
    (hsub : ∀ (c : Nat) (channel : Channel), w'.channels[c]? = some channel →
      w.channels[c]? = some channel) : Apart w' :=
  ⟨fun c c' channel channel' hc hc' => ha.fd_own c c' channel channel' (hsub c channel hc)
    (hsub c' channel' hc'), fun _ _ => h.reads_own⟩

theorem Kept.exec (h : Kept os u w) {task : StoreTask} (ht : ∀ n, task ≠ .attatchToLoop n)
    (hw : StoreLoop.exec os task w = .ok w') : Kept os (u ++ [task]) w' ∧
      ∀ (c : Nat) (channel : Channel), w'.channels[c]? = some channel →
        w.channels[c]? = some channel := by
  cases task with
  | bindAddr ses =>
    cases hw
    exact ⟨h.bindAddr ses, fun c channel hc => by rwa [bindAddr_channels] at hc⟩
  | attatchToLoop ses => exact absurd rfl (ht ses)
  | closeUDP ses =>
    refine ⟨h.closeUDP hw, fun c channel hc => ?_⟩
    obtain ⟨-, rfl⟩ | ⟨c', channel', -, -, rfl⟩ := closeUDP_cases hw
    · exact hc
    · exact get_of_erased hc
  | addOutStream ses addr =>
    cases hw
    exact ⟨h.viewers rfl rfl fun a => by rw [hold_snoc, StoreTask.hold], fun _ _ hc => hc⟩
  | removeOutStream ses addr =>
    cases hw
    exact ⟨h.viewers rfl rfl fun a => by rw [hold_snoc, StoreTask.hold], fun _ _ hc => hc⟩

theorem separate_attatchToLoop {w₀ : StoreLoop} (hw : run (StoreLoop.exec os) u w₀ = .ok w)
    (h : Kept os u w) (ha : Apart w) :
    Separate os w₀ (u ++ [.attatchToLoop ses]) ↔ AttachesOwn os u w (.attatchToLoop ses) := by
  have hnext : ∀ {w'}, run (StoreLoop.exec os) (u ++ [.attatchToLoop ses]) w₀ = .ok w' ↔
      w.attatchToLoop ses = w' := by
    intro w'
    rw [run_snoc_ok]
    constructor
    · intro ⟨m, hm, hstep⟩
      cases hw.symm.trans hm
      exact Except.ok.inj hstep
    · exact fun heq => ⟨w, hw, congrArg Except.ok heq⟩
  have howns := h.owns ses
  constructor
  · intro hsep
    obtain ⟨hapart, hlast⟩ := hsep _ (hnext.mpr rfl)
    have hown : OwnsSocket w ses := hlast u ses rfl w hw
    exact ⟨howns.mp hown, (apart_attatchToLoop h ha hown).mp hapart⟩
  · intro ⟨hhold, hleft⟩ w' hw'
    have hown := howns.mpr hhold
    rw [← hnext.mp hw']
    refine ⟨(apart_attatchToLoop h ha hown).mpr hleft, fun v n hv m hm => ?_⟩
    obtain ⟨rfl, heq⟩ : u = v ∧ StoreTask.attatchToLoop ses = .attatchToLoop n := by
      simpa using hv
    cases heq
    cases hw.symm.trans hm
    exact hown

theorem attachesOwn_other {task : StoreTask} (hne : ∀ n, task ≠ .attatchToLoop n) :
    AttachesOwn os u w task := by
  cases task with
  | attatchToLoop n => exact absurd rfl (hne n)
  | bindAddr ses => trivial
  | closeUDP ses => trivial
  | addOutStream ses addr => trivial
  | removeOutStream ses addr => trivial

theorem separate_other {w₀ : StoreLoop} {task : StoreTask} (hne : ∀ n, task ≠ .attatchToLoop n)
    (hgood : ∀ w, run (StoreLoop.exec os) u w₀ = .ok w → Kept os u w ∧ Apart w) :
    Separate os w₀ (u ++ [task]) := by
  intro w' hw'
  obtain ⟨w, hw, hstep⟩ := run_snoc_ok.mp hw'
  obtain ⟨h, ha⟩ := hgood w hw
  obtain ⟨h', hsub⟩ := h.exec hne hstep
  refine ⟨h'.apart ha hsub, fun v n hv => ?_⟩
  obtain ⟨-, heq⟩ : u = v ∧ task = .attatchToLoop n := by simpa using hv
  exact absurd heq (hne n)

end Tasks

/-- In every order of the tasks of any sessions, no channel is attached to a descriptor that its
session does not hold and no descriptor serves two sessions, exactly when a channel is attached
only while the last bind of its session stands, and not on a number where another session left a
channel behind. -/
theorem descriptors_separate_iff (os : Nat → Outcome) (zeroed : Nat → Bool) (others : List Int)
    (tasks : List StoreTask) :
    (∀ u, u <+: tasks → Separate os (StoreLoop.start zeroed others) u) ↔
      ∀ u task, u ++ [task] <+: tasks →
        ∀ w, run (exec os) u (StoreLoop.start zeroed others) = .ok w →
          AttachesOwn os u w task := by
  have hstart := kept_start os zeroed others
  have hapart : Apart (StoreLoop.start zeroed others) := by
    refine ⟨fun c c' channel channel' hc => ?_, fun _ _ => hstart.reads_own⟩
    simp [StoreLoop.start] at hc
  refine prefix_iff (fun u => ∀ w, run (exec os) u (StoreLoop.start zeroed others) = .ok w →
    Kept os u w ∧ Apart w) tasks ?_ ?_ ?_ ?_
  · intro w hw
    cases hw
    exact ⟨hapart, fun v n hv => by simp at hv⟩
  · intro w hw
    cases hw
    exact ⟨hstart, hapart⟩
  · intro u task _ hgood
    by_cases hatt : ∃ n, task = .attatchToLoop n
    · obtain ⟨n, rfl⟩ := hatt
      constructor
      · intro hsep w hw
        obtain ⟨h, ha⟩ := hgood w hw
        exact (separate_attatchToLoop hw h ha).mp hsep
      · intro hown w' hw'
        obtain ⟨w, hw, -⟩ := run_snoc_ok.mp hw'
        obtain ⟨h, ha⟩ := hgood w hw
        exact (separate_attatchToLoop hw h ha).mpr (hown w hw) w' hw'
    · have hne : ∀ n, task ≠ .attatchToLoop n := fun n heq => hatt ⟨n, heq⟩
      exact ⟨fun _ _ _ => attachesOwn_other hne, fun _ => separate_other hne hgood⟩
  · intro u task _ hgood hsep w' hw'
    obtain ⟨w, hw, hstep⟩ := run_snoc_ok.mp hw'
    obtain ⟨h, ha⟩ := hgood w hw
    refine ⟨?_, (hsep w' hw').1⟩
    by_cases hatt : ∃ n, task = .attatchToLoop n
    · obtain ⟨n, rfl⟩ := hatt
      cases hstep
      exact h.attatchToLoop ((hsep _ hw').2 u n rfl w hw)
    · exact (h.exec (fun n heq => hatt ⟨n, heq⟩) hstep).1

theorem not_separate {os : Nat → Outcome} {w₀ : StoreLoop} {u : List StoreTask} {n : Nat}
    {k : Option (Option Nat)} (hk : k ≠ some (some n))
    (h : (run (exec os) u w₀).map (fun w => w.descriptors[(w.sessions n).fd_]?) = .ok k) :
    ¬ Separate os w₀ (u ++ [.attatchToLoop n]) := by
  intro hsep
  obtain ⟨w, hw, hget⟩ := map_ok_iff.mp h
  have hown := (hsep _ (run_snoc_ok.mpr ⟨w, hw, rfl⟩)).2 u n rfl w hw
  exact hk (hget.symm.trans hown)

/-- The number of a socket whose bind failed goes to the next session, and with it the first
session's channel; so does the number of a socket that was closed, after another start. -/
theorem descriptor_shared :
    ((run (exec fun n => if n = 0 then .notBound 98 else .bound) [.bindAddr 0, .bindAddr 1,
      .attatchToLoop 0, .attatchToLoop 1] (StoreLoop.start (fun _ => true) [0, 1, 2])).map
        fun w => w.channels.toList) = .ok [(0, { ses := 0, fd_ := 3 }), (1, { ses := 1, fd_ := 3 })]
    ∧ ¬ Separate (fun n => if n = 0 then .notBound 98 else .bound)
        (StoreLoop.start (fun _ => true) [0, 1, 2]) [.bindAddr 0, .bindAddr 1, .attatchToLoop 0]
    ∧ ¬ Separate (fun _ => .bound) (StoreLoop.start (fun _ => true) [0, 1, 2])
        [.bindAddr 0, .attatchToLoop 0, .closeUDP 0, .bindAddr 1, .attatchToLoop 0] := by
  have hother : some (some 1) ≠ some (some 0) := by decide
  refine ⟨by decide, ?_, ?_⟩
  · exact not_separate (u := [.bindAddr 0, .bindAddr 1]) hother (by decide)
  · exact not_separate (u := [.bindAddr 0, .attatchToLoop 0, .closeUDP 0, .bindAddr 1]) hother
      (by decide)

end LazyNet.Sessions
