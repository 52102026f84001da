import UdfRead.Lib.Comp

/-!
# UdfRead.Lib.Mem

The memory a caller's buffer lies in, as a function from addresses to bytes, and the store of a
run of bytes (`blit`): what it writes, and what it leaves alone. `Holds` says that a part of the
memory holds a part of a byte sequence. Also signed 64-bit numbers: the value of a word and the
addition that traps on overflow.
-/

namespace CModel

abbrev Mem := Nat → UInt8

/-- Store `n` bytes of `data` from address `a` on. -/
def Mem.blit (m : Mem) (a n : Nat) (data : Nat → UInt8) : Mem := fun x =>
  if a ≤ x ∧ x < a + n then data (x - a) else m x

namespace Mem

variable {m : Mem} {a n x : Nat} {data : Nat → UInt8}

theorem blit_in (h : a ≤ x) (h' : x < a + n) : m.blit a n data x = data (x - a) :=
  if_pos ⟨h, h'⟩

theorem blit_at {k : Nat} (h : k < n) : m.blit a n data (a + k) = data k := by
  rw [blit_in (by omega) (by omega), Nat.add_sub_cancel_left]

theorem blit_out (h : x < a ∨ a + n ≤ x) : m.blit a n data x = m x :=
  if_neg (by omega)

/-- The `n` bytes from address `a` on are those of `content` from position `pos` on. -/
def Holds (m : Mem) (a n : Nat) (content : Nat → UInt8) (pos : Nat) : Prop :=
  ∀ k, k < n → m (a + k) = content (pos + k)

variable {content : Nat → UInt8} {pos : Nat}

theorem holds_zero : m.Holds a 0 content pos := fun _ h => absurd h (by omega)

/-- Two parts that follow each other. -/
theorem Holds.append {n' : Nat} (h : m.Holds a n content pos)
    (h' : m.Holds (a + n) n' content (pos + n)) : m.Holds a (n + n') content pos := by
  intro k hk
  by_cases hn : k < n
  · exact h k hn
  · have := h' (k - n) (by omega)
    rwa [show a + n + (k - n) = a + k by omega, show pos + n + (k - n) = pos + k by omega] at this

theorem Holds.of_eq {m' : Mem} (h : m.Holds a n content pos)
    (he : ∀ x, a ≤ x → x < a + n → m' x = m x) : m'.Holds a n content pos := by
  intro k hk
  rw [he _ (by omega) (by omega), h k hk]

theorem holds_blit (h : ∀ k, k < n → data k = content (pos + k)) :
    (m.blit a n data).Holds a n content pos := by
  intro k hk
  rw [blit_at hk, h k hk]

end Mem

/-- The value of a 64-bit word read as a two's complement number. -/
def signed64 (u : UInt64) : Int :=
  if u.toNat < 2 ^ 63 then (u.toNat : Int) else (u.toNat : Int) - 2 ^ 64

/-- Signed 64-bit addition. -/
def addSigned64 (a b : Int) : Res Int :=
  if -2 ^ 63 ≤ a + b ∧ a + b < 2 ^ 63 then .ok (a + b) else .error .signedOverflow

theorem signed64_of_lt {u : UInt64} (h : u.toNat < 2 ^ 63) : signed64 u = u.toNat := if_pos h

theorem neg_le_signed64 (u : UInt64) : -2 ^ 63 ≤ signed64 u := by
  unfold signed64
  split <;> omega

end CModel
