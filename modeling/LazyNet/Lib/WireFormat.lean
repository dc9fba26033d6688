import Mathlib.Algebra.GroupWithZero.Nat
import Mathlib.Data.List.Forall2
import Mathlib.Tactic.Common

/-! The wire format of proto2 messages: a byte string as a list of numbered fields, and the
fields of a number that hold a value of a type. -/
namespace LazyNet.WireFormat

/-- A varint of at most `n` bytes, and the bytes after it. -/
def readVarint : Nat → List UInt8 → Option (Nat × List UInt8)
  | 0, _ => none
  | _ + 1, [] => none
  | n + 1, b :: bs =>
    if b.toNat < 128 then some (b.toNat, bs)
    else (readVarint n bs).map fun r => (b.toNat % 128 + 128 * r.1, r.2)

def littleEndian : List UInt8 → Nat
  | [] => 0
  | b :: bs => b.toNat + 256 * littleEndian bs

/-- The values of the wire types 0, 1, 2 and 5. -/
inductive Value where
  | varint (v : UInt64)
  | fixed64 (v : UInt64)
  | bytes (bs : List UInt8)
  | fixed32 (v : UInt32)
  deriving DecidableEq, Repr

structure Field where
  number : Nat
  value : Value
  deriving DecidableEq, Repr

inductive Token where
  | field (f : Field)
  | startGroup (number : Nat)
  | endGroup (number : Nat)
  deriving DecidableEq, Repr

def readFixed (k : Nat) (bs : List UInt8) : Option (Nat × List UInt8) :=
  if k ≤ bs.length then some (littleEndian (bs.take k), bs.drop k) else none

/-- A length and that many bytes. A length that runs past the end takes what is there: so does
the reader of a nested message, while that of a string rejects it. -/
def readBytes (bs : List UInt8) : Option (List UInt8 × List UInt8) :=
  (readVarint 10 bs).map fun r => (r.2.take (r.1 % 2 ^ 32), r.2.drop (r.1 % 2 ^ 32))

def readPayload (number wireType : Nat) (bs : List UInt8) : Option (Token × List UInt8) :=
  match wireType with
  | 0 => (readVarint 10 bs).map fun r => (.field ⟨number, .varint (UInt64.ofNat r.1)⟩, r.2)
  | 1 => (readFixed 8 bs).map fun r => (.field ⟨number, .fixed64 (UInt64.ofNat r.1)⟩, r.2)
  | 2 => (readBytes bs).map fun r => (.field ⟨number, .bytes r.1⟩, r.2)
  | 3 => some (.startGroup number, bs)
  | 4 => some (.endGroup number, bs)
  | 5 => (readFixed 4 bs).map fun r => (.field ⟨number, .fixed32 (UInt32.ofNat r.1)⟩, r.2)
  | _ => none

def readToken (bs : List UInt8) : Option (Token × List UInt8) :=
  (readVarint 10 bs).bind fun r =>
    let tag := r.1 % 2 ^ 32
    if tag = 0 then none else readPayload (tag / 8) (tag % 8) r.2

/-- The fields outside of groups, under the numbers of the groups that are open. -/
def readFields : Nat → List Nat → List UInt8 → Option (List Field)
  | _, groups, [] => if groups = [] then some [] else none
  | 0, _, _ :: _ => none
  | fuel + 1, groups, b :: bs =>
    match readToken (b :: bs), groups with
    | none, _ => none
    | some (.field f, rest), [] => (readFields fuel [] rest).map (f :: ·)
    | some (.field _, rest), g :: groups => readFields fuel (g :: groups) rest
    | some (.startGroup n, rest), groups => readFields fuel (n :: groups) rest
    | some (.endGroup _, _), [] => none
    | some (.endGroup n, rest), g :: groups =>
      if g = n then readFields fuel groups rest else none

/-- Every token takes a byte, so the length is fuel enough. -/
def fields (bs : List UInt8) : Option (List Field) := readFields bs.length [] bs

theorem readVarint_length {n : Nat} {bs rest : List UInt8} {v : Nat}
    (h : readVarint n bs = some (v, rest)) : rest.length < bs.length := by
  induction n generalizing bs v with
  | zero => cases h
  | succ n ih =>
    cases bs with
    | nil => cases h
    | cons b bs =>
      rw [readVarint] at h
      split_ifs at h
      · cases h
        exact Nat.lt_succ_self _
      · obtain ⟨r, hr, heq⟩ := Option.map_eq_some_iff.mp h
        cases heq
        exact Nat.lt_succ_of_lt (ih hr)

theorem readFixed_length {k v : Nat} {bs rest : List UInt8}
    (h : readFixed k bs = some (v, rest)) : rest.length ≤ bs.length := by
  unfold readFixed at h
  split_ifs at h
  cases h
  rw [List.length_drop]
  omega

theorem readBytes_length {bs data rest : List UInt8} (h : readBytes bs = some (data, rest)) :
    rest.length ≤ bs.length := by
  obtain ⟨r, hr, heq⟩ := Option.map_eq_some_iff.mp h
  have hlt := readVarint_length hr
  cases heq
  rw [List.length_drop]
  omega

theorem readPayload_length {number wireType : Nat} {bs rest : List UInt8} {t : Token}
    (h : readPayload number wireType bs = some (t, rest)) : rest.length ≤ bs.length := by
  unfold readPayload at h
  split at h
  · obtain ⟨r, hr, heq⟩ := Option.map_eq_some_iff.mp h
    cases heq
    exact Nat.le_of_lt (readVarint_length hr)
  · obtain ⟨r, hr, heq⟩ := Option.map_eq_some_iff.mp h
    cases heq
    exact readFixed_length hr
  · obtain ⟨r, hr, heq⟩ := Option.map_eq_some_iff.mp h
    cases heq
    exact readBytes_length hr
  · cases h
    exact Nat.le_refl _
  · cases h
    exact Nat.le_refl _
  · obtain ⟨r, hr, heq⟩ := Option.map_eq_some_iff.mp h
    cases heq
    exact readFixed_length hr
  · cases h

theorem readToken_length {bs rest : List UInt8} {t : Token} (h : readToken bs = some (t, rest)) :
    rest.length < bs.length := by
  obtain ⟨r, htag, h⟩ := Option.bind_eq_some_iff.mp h
  dsimp only at h
  split_ifs at h
  exact Nat.lt_of_le_of_lt (readPayload_length h) (readVarint_length htag)

theorem readFields_fuel {fuel fuel' : Nat} {groups : List Nat} {bs : List UInt8}
    (h : bs.length ≤ fuel) (h' : bs.length ≤ fuel') :
    readFields fuel groups bs = readFields fuel' groups bs := by
  induction fuel generalizing fuel' groups bs with
  | zero =>
    have hnil := List.length_eq_zero_iff.mp (Nat.le_zero.mp h)
    subst hnil
    cases groups <;> simp [readFields]
  | succ fuel ih =>
    cases bs with
    | nil => cases groups <;> simp [readFields]
    | cons b bs =>
      cases fuel' with
      | zero => simp at h'
      | succ fuel' =>
        have hstep : ∀ groups t rest, readToken (b :: bs) = some (t, rest) →
            readFields fuel groups rest = readFields fuel' groups rest := by
          intro groups t rest ht
          have hlt := readToken_length ht
          exact ih (by omega) (by omega)
        simp only [readFields]
        cases ht : readToken (b :: bs) with
        | none => rfl
        | some p =>
          obtain ⟨t, rest⟩ := p
          cases t with
          | field f => cases groups <;> simp only [hstep _ _ _ ht]
          | startGroup n => exact hstep _ _ _ ht
          | endGroup n => cases groups <;> simp only [hstep _ _ _ ht]

theorem fields_cons {bs rest : List UInt8} {f : Field}
    (h : readToken bs = some (.field f, rest)) : fields bs = (fields rest).map (f :: ·) := by
  have hlt := readToken_length h
  cases bs with
  | nil => simp at hlt
  | cons b bs =>
    have hfuel : readFields bs.length [] rest = readFields rest.length [] rest :=
      readFields_fuel (Nat.le_of_lt_succ hlt) (Nat.le_refl _)
    simp only [fields, List.length_cons, readFields, h, hfuel]

section Write

def writeVarint : Nat → Nat → List UInt8
  | 0, v => [UInt8.ofNat v]
  | n + 1, v =>
    if v < 128 then [UInt8.ofNat v] else UInt8.ofNat (v % 128 + 128) :: writeVarint n (v / 128)

def writeFixed : Nat → Nat → List UInt8
  | 0, _ => []
  | k + 1, v => UInt8.ofNat (v % 256) :: writeFixed k (v / 256)

def Value.wireType : Value → Nat
  | .varint _ => 0
  | .fixed64 _ => 1
  | .bytes _ => 2
  | .fixed32 _ => 5

def Value.write : Value → List UInt8
  | .varint v => writeVarint 9 v.toNat
  | .fixed64 v => writeFixed 8 v.toNat
  | .bytes bs => writeVarint 9 bs.length ++ bs
  | .fixed32 v => writeFixed 4 v.toNat

def Field.write (f : Field) : List UInt8 :=
  writeVarint 9 (8 * f.number + f.value.wireType) ++ f.value.write

structure Field.Fits (f : Field) : Prop where
  pos : 0 < f.number
  lt : f.number < 2 ^ 29
  length : ∀ bs, f.value = .bytes bs → bs.length < 2 ^ 32

theorem readVarint_write (n : Nat) {v : Nat} (rest : List UInt8) (h : v < 128 ^ (n + 1)) :
    readVarint (n + 1) (writeVarint n v ++ rest) = some (v, rest) := by
  have hsmall : ∀ m w, w < 128 →
      readVarint (m + 1) ([UInt8.ofNat w] ++ rest) = some (w, rest) := by
    intro m w hw
    have hb : (UInt8.ofNat w).toNat = w := by rw [UInt8.toNat_ofNat']; omega
    simp [readVarint, hb, hw]
  induction n generalizing v with
  | zero => exact hsmall 0 v h
  | succ n ih =>
    rw [writeVarint]
    split_ifs with hv
    · exact hsmall (n + 1) v hv
    · have hb : (UInt8.ofNat (v % 128 + 128)).toNat = v % 128 + 128 := by
        rw [UInt8.toNat_ofNat']
        omega
      have hdiv : v / 128 < 128 ^ (n + 1) := Nat.div_lt_of_lt_mul (by rwa [Nat.pow_succ'] at h)
      have hjoin : (v % 128 + 128) % 128 + 128 * (v / 128) = v := by omega
      rw [List.cons_append, readVarint, hb, if_neg (by omega), ih hdiv, Option.map_some, hjoin]

@[simp] theorem writeFixed_length (k v : Nat) : (writeFixed k v).length = k := by
  induction k generalizing v with
  | zero => rfl
  | succ k ih => rw [writeFixed, List.length_cons, ih]

theorem littleEndian_write {k v : Nat} (h : v < 256 ^ k) : littleEndian (writeFixed k v) = v := by
  induction k generalizing v with
  | zero =>
    have h0 : v = 0 := by simpa using h
    rw [h0]
    rfl
  | succ k ih =>
    have hdiv : v / 256 < 256 ^ k := Nat.div_lt_of_lt_mul (by rwa [Nat.pow_succ'] at h)
    rw [writeFixed, littleEndian, ih hdiv, UInt8.toNat_ofNat']
    omega

theorem readFixed_write {k v : Nat} (rest : List UInt8) (h : v < 256 ^ k) :
    readFixed k (writeFixed k v ++ rest) = some (v, rest) := by
  have hlen := writeFixed_length k v
  rw [readFixed, if_pos (by simp), List.take_left' hlen, List.drop_left' hlen,
    littleEndian_write h]

theorem readBytes_write {bs : List UInt8} (rest : List UInt8) (h : bs.length < 2 ^ 32) :
    readBytes (writeVarint 9 bs.length ++ bs ++ rest) = some (bs, rest) := by
  rw [readBytes, List.append_assoc, readVarint_write 9 _ (by omega), Option.map_some,
    Nat.mod_eq_of_lt h, List.take_left, List.drop_left]

theorem readPayload_write {f : Field} (h : f.Fits) (rest : List UInt8) :
    readPayload f.number f.value.wireType (f.value.write ++ rest) = some (.field f, rest) := by
  obtain ⟨number, value⟩ := f
  cases value with
  | varint v =>
    have hv := v.toNat_lt
    simp only [readPayload, Value.wireType, Value.write]
    rw [readVarint_write 9 _ (by omega)]
    simp
  | fixed64 v =>
    simp only [readPayload, Value.wireType, Value.write]
    rw [readFixed_write _ v.toNat_lt]
    simp
  | bytes bs =>
    simp only [readPayload, Value.wireType, Value.write]
    rw [readBytes_write _ (h.length bs rfl)]
    rfl
  | fixed32 v =>
    simp only [readPayload, Value.wireType, Value.write]
    rw [readFixed_write _ v.toNat_lt]
    simp

theorem readToken_write {f : Field} (h : f.Fits) (rest : List UInt8) :
    readToken (f.write ++ rest) = some (.field f, rest) := by
  have hpos := h.pos
  have hlt := h.lt
  have hwire : f.value.wireType < 8 := by cases f.value <;> simp [Value.wireType]
  have hmod : (8 * f.number + f.value.wireType) % 2 ^ 32 = 8 * f.number + f.value.wireType :=
    Nat.mod_eq_of_lt (by omega)
  have hnumber : (8 * f.number + f.value.wireType) / 8 = f.number := by omega
  have htype : (8 * f.number + f.value.wireType) % 8 = f.value.wireType := by omega
  rw [readToken, Field.write, List.append_assoc, readVarint_write 9 _ (by omega)]
  simp only [Option.bind_some]
  rw [hmod, if_neg (by omega), hnumber, htype, readPayload_write h]

theorem fields_write {fs : List Field} (h : ∀ f ∈ fs, f.Fits) :
    fields (fs.flatMap Field.write) = some fs := by
  induction fs with
  | nil => rfl
  | cons f fs ih =>
    rw [List.flatMap_cons, fields_cons (readToken_write (h f List.mem_cons_self) _),
      ih fun g hg => h g (List.mem_cons_of_mem f hg)]
    rfl

theorem length_le_write {fs : List Field} {f : Field} (hf : f ∈ fs) {bs : List UInt8}
    (h : f.value = .bytes bs) : bs.length ≤ (fs.flatMap Field.write).length := by
  have hle : bs.length ≤ f.write.length := by
    rw [Field.write, h, Value.write]
    simp only [List.length_append]
    omega
  obtain ⟨before, after, rfl⟩ := List.append_of_mem hf
  rw [List.flatMap_append, List.flatMap_cons, List.length_append, List.length_append]
  omega

theorem fits_of_length {fs : List Field} (hn : ∀ f ∈ fs, 0 < f.number ∧ f.number < 2 ^ 29)
    (h : (fs.flatMap Field.write).length < 2 ^ 32) : ∀ f ∈ fs, f.Fits :=
  fun f hf => ⟨(hn f hf).1, (hn f hf).2, fun _ hb => Nat.lt_of_le_of_lt (length_le_write hf hb) h⟩

end Write

namespace Value

/-- A `uint32` keeps the low half of a long varint. -/
def uint32 : Value → Option UInt32
  | .varint v => some v.toUInt32
  | _ => none

def bool : Value → Option Bool
  | .varint v => some (v != 0)
  | _ => none

def double : Value → Option UInt64
  | .fixed64 v => some v
  | _ => none

def float : Value → Option UInt32
  | .fixed32 v => some v
  | _ => none

/-- One character for each byte, as in a `std::string`. -/
def string : Value → Option String
  | .bytes bs => some (String.ofList (bs.map fun b => Char.ofNat b.toNat))
  | _ => none

def message : Value → Option (List UInt8)
  | .bytes bs => some bs
  | _ => none

def ofUInt32 (v : UInt32) : Value := .varint v.toUInt64
def ofBool (b : Bool) : Value := .varint (if b then 1 else 0)
def ofString (s : String) : Value := .bytes (s.toList.map fun c => UInt8.ofNat c.toNat)

end Value

section Carried
variable {α : Type*} (f : Value → Option α) (n : Nat) (fs : List Field)

def allOf : List α := fs.filterMap fun x => if x.number = n then f x.value else none

/-- A later field of a number that may be set once takes the place of an earlier one. -/
def lastOf : Option α := (allOf f n fs).getLast?

def fieldsOf (w : α → Value) (n : Nat) (l : List α) : List Field := l.map fun a => ⟨n, w a⟩

def Carries : Prop := ∃ x ∈ fs, x.number = n ∧ (f x.value).isSome

variable {f n fs}

theorem mem_allOf {a : α} : a ∈ allOf f n fs ↔ ∃ x ∈ fs, x.number = n ∧ f x.value = some a := by
  simp [allOf]

theorem lastOf_isSome : (lastOf f n fs).isSome ↔ Carries f n fs := by
  rw [lastOf, Option.isSome_iff_exists, Carries]
  constructor
  · rintro ⟨a, ha⟩
    obtain ⟨x, hx, hn, hf⟩ := mem_allOf.mp (List.mem_of_getLast? ha)
    exact ⟨x, hx, hn, by rw [hf]; rfl⟩
  · rintro ⟨x, hx, hn, hf⟩
    obtain ⟨a, ha⟩ := Option.isSome_iff_exists.mp hf
    have hmem : a ∈ allOf f n fs := mem_allOf.mpr ⟨x, hx, hn, ha⟩
    exact ⟨_, List.getLast?_eq_some_getLast (List.ne_nil_of_mem hmem)⟩

theorem lastOf_mem {a : α} (h : lastOf f n fs = some a) :
    ∃ x ∈ fs, x.number = n ∧ f x.value = some a :=
  mem_allOf.mp (List.mem_of_getLast? h)

theorem allOf_append (gs : List Field) : allOf f n (fs ++ gs) = allOf f n fs ++ allOf f n gs :=
  List.filterMap_append

theorem allOf_fieldsOf {w : α → Value} {l : List α} (h : ∀ a ∈ l, f (w a) = some a) :
    allOf f n (fieldsOf w n l) = l := by
  induction l with
  | nil => rfl
  | cons a l ih =>
    have hrest := ih fun b hb => h b (List.mem_cons_of_mem a hb)
    simp only [allOf, fieldsOf] at hrest ⊢
    rw [List.map_cons, List.filterMap_cons_some (by simpa using h a List.mem_cons_self), hrest]

theorem allOf_fieldsOf_ne {β : Type*} {w : β → Value} {m : Nat} (h : m ≠ n) (l : List β) :
    allOf f n (fieldsOf w m l) = [] := by
  simp [allOf, fieldsOf, h]

theorem lastOf_append (gs : List Field) :
    lastOf f n (fs ++ gs) = (lastOf f n gs).or (lastOf f n fs) := by
  rw [lastOf, allOf_append, List.getLast?_append, lastOf, lastOf]

theorem lastOf_fieldsOf {w : α → Value} {o : Option α} (h : ∀ a ∈ o.toList, f (w a) = some a) :
    lastOf f n (fieldsOf w n o.toList) = o := by
  rw [lastOf, allOf_fieldsOf h]
  cases o <;> rfl

theorem lastOf_fieldsOf_ne {β : Type*} {w : β → Value} {m : Nat} (h : m ≠ n) (l : List β) :
    lastOf f n (fieldsOf w m l) = none := by
  rw [lastOf, allOf_fieldsOf_ne h]
  rfl

/-- The messages that the fields of number `n` hold, each made of its own fields. -/
def nested (g : List Field → Option α) (n : Nat) (fs : List Field) : Option (List α) :=
  (allOf Value.message n fs).mapM fun data => (fields data).bind g

theorem nested_eq_some {g : List Field → Option α} {ms : List α} :
    nested g n fs = some ms ↔
      List.Forall₂ (fun data m => ∃ sub, fields data = some sub ∧ g sub = some m)
        (allOf Value.message n fs) ms := by
  rw [nested]
  generalize allOf Value.message n fs = l
  induction l generalizing ms with
  | nil => simp [eq_comm]
  | cons data l ih =>
    rw [List.forall₂_cons_left_iff, List.mapM_cons]
    constructor
    · intro h
      obtain ⟨m, hm, h⟩ := Option.bind_eq_some_iff.mp h
      obtain ⟨rest, hrest, h⟩ := Option.bind_eq_some_iff.mp h
      cases h
      exact ⟨m, rest, Option.bind_eq_some_iff.mp hm, ih.mp hrest, rfl⟩
    · rintro ⟨m, rest, hm, hrest, rfl⟩
      simp [Option.bind_eq_some_iff.mpr hm, ih.mpr hrest]

theorem allOf_message {w : α → List UInt8} (l : List α) :
    allOf Value.message n (fieldsOf (fun a => .bytes (w a)) n l) = l.map w := by
  induction l with
  | nil => rfl
  | cons a l ih =>
    simp only [allOf, fieldsOf] at ih ⊢
    rw [List.map_cons, List.filterMap_cons_some (by simp [Value.message]; rfl), ih, List.map_cons]

theorem nested_written {g : List Field → Option α} {ms : List α} {w : α → List UInt8}
    (hdata : allOf Value.message n fs = ms.map w) (hlen : (fs.flatMap Field.write).length < 2 ^ 32)
    (h : ∀ m ∈ ms, (w m).length < 2 ^ 32 → (fields (w m)).bind g = some m) :
    nested g n fs = some ms := by
  have hshort : ∀ m ∈ ms, (w m).length < 2 ^ 32 := by
    intro m hm
    have hmem : w m ∈ allOf Value.message n fs := hdata ▸ List.mem_map_of_mem hm
    obtain ⟨x, hx, -, hval⟩ := mem_allOf.mp hmem
    cases hv : x.value with
    | bytes bs =>
      rw [hv] at hval
      cases hval
      exact Nat.lt_of_le_of_lt (length_le_write hx hv) hlen
    | _ =>
      rw [hv] at hval
      cases hval
  rw [nested_eq_some, hdata, List.forall₂_map_left_iff, List.forall₂_same]
  exact fun m hm => Option.bind_eq_some_iff.mp (h m hm (hshort m hm))

theorem nested_mem {g : List Field → Option α} {ms : List α} (h : nested g n fs = some ms) {m : α}
    (hm : m ∈ ms) :
    ∃ data ∈ allOf Value.message n fs, ∃ sub, fields data = some sub ∧ g sub = some m := by
  rw [nested_eq_some] at h
  generalize allOf Value.message n fs = l at h
  induction h with
  | nil => cases hm
  | cons hhead _ ih =>
    cases hm with
    | head => exact ⟨_, List.mem_cons_self, hhead⟩
    | tail _ hm =>
      obtain ⟨data, hdata, hsub⟩ := ih hm
      exact ⟨data, List.mem_cons_of_mem _ hdata, hsub⟩

theorem nested_get {g : List Field → Option α} {ms : List α} (h : nested g n fs = some ms)
    {i : Nat} {data : List UInt8} (hi : (allOf Value.message n fs)[i]? = some data) :
    ∃ m ∈ ms, ∃ sub, fields data = some sub ∧ g sub = some m := by
  rw [nested_eq_some] at h
  generalize allOf Value.message n fs = l at h hi
  induction h generalizing i with
  | nil => simp at hi
  | cons hhead _ ih =>
    cases i with
    | zero =>
      simp only [List.getElem?_cons_zero, Option.some.injEq] at hi
      subst hi
      exact ⟨_, List.mem_cons_self, hhead⟩
    | succ i =>
      obtain ⟨m, hm, hsub⟩ := ih hi
      exact ⟨m, List.mem_cons_of_mem _ hm, hsub⟩

end Carried
end LazyNet.WireFormat
