import UdfRead.Lib.Comp

/-!
# UdfRead.Lib.Bytes

Byte objects with checked access, and little-endian numbers in them. `byteAt`, `getU8` .. `getU64`
and `slice` trap when an index is outside of the object; `leVal` is the number an in-bounds read
returns, and `leBytes` writes one.
-/

namespace CModel

abbrev Bytes := List UInt8

def byteAt (p : Bytes) (i : Nat) : Res UInt8 :=
  match p[i]? with
  | some b => .ok b
  | none => .error .outOfBounds

def getU8 (p : Bytes) (i : Nat) : Res UInt32 := do
  return (← byteAt p i).toUInt32

def getU16 (p : Bytes) (i : Nat) : Res UInt32 := do
  let lo ← getU8 p i
  let hi ← getU8 p (i + 1)
  return lo ||| (hi <<< 8)

def getU32 (p : Bytes) (i : Nat) : Res UInt32 := do
  let lo ← getU16 p i
  let hi ← getU16 p (i + 2)
  return lo ||| (hi <<< 16)

def getU64 (p : Bytes) (i : Nat) : Res UInt64 := do
  let lo ← getU32 p i
  let hi ← getU32 p (i + 4)
  return lo.toUInt64 ||| (hi.toUInt64 <<< 32)

/-- Copy `n` bytes from index `i` on. -/
def slice (p : Bytes) (i n : Nat) : Res Bytes :=
  if i + n ≤ p.length then .ok ((p.drop i).take n) else .error .outOfBounds

/-- The number held by the `n` bytes from index `i` on, low byte first. -/
def leVal (p : Bytes) (i : Nat) : Nat → Nat
  | 0 => 0
  | n + 1 => (p.getD i 0).toNat + 256 * leVal p (i + 1) n

/-- The `n` low bytes of `v`, low byte first. -/
def leBytes : Nat → Nat → Bytes
  | 0, _ => []
  | n + 1, v => UInt8.ofNat v :: leBytes n (v / 256)

@[simp] theorem leBytes_length (n v : Nat) : (leBytes n v).length = n := by
  induction n generalizing v with
  | zero => rfl
  | succ n ih => simp [leBytes, ih]

/-! ## In-bounds reads -/

section Reads

variable {p : Bytes} {i n : Nat}

theorem byteAt_eq (h : i < p.length) : byteAt p i = .ok (p.getD i 0) := by
  simp [byteAt, List.getElem?_eq_getElem h, List.getD_eq_getElem?_getD]

theorem leVal_lt (p : Bytes) (i n : Nat) : leVal p i n < 256 ^ n := by
  induction n generalizing i with
  | zero => simp [leVal]
  | succ n ih =>
    have hb := (p.getD i 0).toNat_lt
    have hr := ih (i + 1)
    rw [leVal, Nat.pow_succ]
    omega

theorem leVal_add (p : Bytes) (i m n : Nat) :
    leVal p i (m + n) = leVal p i m + 256 ^ m * leVal p (i + m) n := by
  induction m generalizing i with
  | zero => simp [leVal]
  | succ m ih =>
    rw [Nat.add_right_comm, leVal, leVal, ih (i + 1), Nat.pow_succ, show i + 1 + m = i + (m + 1) by omega]
    ring

/-- Joining a low half below `2 ^ k` with a shifted high half is addition. -/
theorem or_shift_eq (a b k : Nat) (ha : a < 2 ^ k) : a ||| b <<< k = a + 2 ^ k * b := by
  rw [Nat.lor_comm, ← Nat.shiftLeft_add_eq_or_of_lt ha, Nat.shiftLeft_eq, Nat.add_comm, Nat.mul_comm]

theorem getU8_eq (h : i < p.length) : getU8 p i = .ok (UInt32.ofNat (leVal p i 1)) := by
  simp only [getU8, byteAt_eq h, Res.ok_bind, Res.pure_def, leVal, Nat.mul_zero, Nat.add_zero]
  refine congrArg Except.ok (UInt32.toNat_inj.mp ?_)
  simp only [UInt8.toNat_toUInt32, UInt32.toNat_ofNat']
  have := (p.getD i 0).toNat_lt
  omega

theorem getU16_eq (h : i + 2 ≤ p.length) : getU16 p i = .ok (UInt32.ofNat (leVal p i 2)) := by
  have hlo := leVal_lt p i 1
  have hhi := leVal_lt p (i + 1) 1
  simp only [getU16, getU8_eq (show i < p.length by omega),
    getU8_eq (show i + 1 < p.length by omega), Res.ok_bind, Res.pure_def]
  refine congrArg Except.ok (UInt32.toNat_inj.mp ?_)
  simp only [UInt32.toNat_or, UInt32.toNat_shiftLeft, UInt32.toNat_ofNat']
  rw [Nat.mod_eq_of_lt (by omega : leVal p i 1 < 2 ^ 32),
    Nat.mod_eq_of_lt (by omega : leVal p (i + 1) 1 < 2 ^ 32),
    show (8 : UInt32).toNat % 32 = 8 from rfl,
    Nat.mod_eq_of_lt (by rw [Nat.shiftLeft_eq]; omega), or_shift_eq _ _ 8 (by omega),
    leVal_add p i 1 1, Nat.mod_eq_of_lt (by omega)]; norm_num

theorem getU32_eq (h : i + 4 ≤ p.length) : getU32 p i = .ok (UInt32.ofNat (leVal p i 4)) := by
  have hlo := leVal_lt p i 2
  have hhi := leVal_lt p (i + 2) 2
  simp only [getU32, getU16_eq (show i + 2 ≤ p.length by omega),
    getU16_eq (show i + 2 + 2 ≤ p.length by omega), Res.ok_bind, Res.pure_def]
  refine congrArg Except.ok (UInt32.toNat_inj.mp ?_)
  simp only [UInt32.toNat_or, UInt32.toNat_shiftLeft, UInt32.toNat_ofNat']
  rw [Nat.mod_eq_of_lt (by omega : leVal p i 2 < 2 ^ 32),
    Nat.mod_eq_of_lt (by omega : leVal p (i + 2) 2 < 2 ^ 32),
    show (16 : UInt32).toNat % 32 = 16 from rfl,
    Nat.mod_eq_of_lt (by rw [Nat.shiftLeft_eq]; omega), or_shift_eq _ _ 16 (by omega),
    leVal_add p i 2 2, Nat.mod_eq_of_lt (by omega)]; norm_num

theorem getU64_eq (h : i + 8 ≤ p.length) : getU64 p i = .ok (UInt64.ofNat (leVal p i 8)) := by
  have hlo := leVal_lt p i 4
  have hhi := leVal_lt p (i + 4) 4
  simp only [getU64, getU32_eq (show i + 4 ≤ p.length by omega),
    getU32_eq (show i + 4 + 4 ≤ p.length by omega), Res.ok_bind, Res.pure_def]
  refine congrArg Except.ok (UInt64.toNat_inj.mp ?_)
  simp only [UInt64.toNat_or, UInt64.toNat_shiftLeft, UInt32.toNat_toUInt64, UInt32.toNat_ofNat',
    UInt64.toNat_ofNat']
  rw [Nat.mod_eq_of_lt (by omega : leVal p i 4 < 2 ^ 32),
    Nat.mod_eq_of_lt (by omega : leVal p (i + 4) 4 < 2 ^ 32),
    show (32 : UInt64).toNat % 64 = 32 from rfl,
    Nat.mod_eq_of_lt (by rw [Nat.shiftLeft_eq]; omega), or_shift_eq _ _ 32 (by omega),
    leVal_add p i 4 4, Nat.mod_eq_of_lt (by omega)]; norm_num

theorem slice_eq (h : i + n ≤ p.length) : slice p i n = .ok ((p.drop i).take n) := if_pos h

end Reads

/-! ## Equal parts -/

/-- The first `m` bytes of `b` stand in `data` from `offset` on. -/
def Agrees (data : Bytes) (offset : Nat) (b : Bytes) (m : Nat) : Prop :=
  ∀ k, k < m → data.getD (offset + k) 0 = b.getD k 0

theorem Agrees.leVal {data b : Bytes} {offset m i w : Nat} (h : Agrees data offset b m)
    (hi : i + w ≤ m) : leVal data (offset + i) w = leVal b i w := by
  induction w generalizing i with
  | zero => rfl
  | succ w ih =>
    rw [CModel.leVal, CModel.leVal, h i (by omega), Nat.add_assoc, ih (by omega)]

theorem agrees_take {b : Bytes} {m n : Nat} (h : m ≤ n) : Agrees (b.take n) 0 b m := by
  intro k hk
  rw [Nat.zero_add, List.getD_eq_getElem?_getD, List.getD_eq_getElem?_getD,
    List.getElem?_take_of_lt (by omega)]

end CModel
