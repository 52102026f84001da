import UdfRead.Lib.Bytes

/-!
# UdfRead.Mutf8

`udf_cs0_to_mutf8` of `udf_fs.c`: CS0 strings (UDF 2.1.1) to Modified UTF-8. The output buffer is
the allocated array `out` with its current size; `out_pos` is the number of bytes written, and a
write behind the array traps.
-/

namespace UdfRead

open CModel

structure OutBuf where
  out : Bytes
  outSize : Nat

/-- `out[out_pos++] = b`. -/
def OutBuf.put (o : OutBuf) (b : UInt8) : Res OutBuf :=
  if o.out.length < o.outSize then .ok { o with out := o.out ++ [b] } else .error .outOfBounds

/-- `out_size += n` and the `realloc` after it. -/
def OutBuf.grow (o : OutBuf) (n : Nat) : OutBuf := { o with outSize := o.outSize + n }

/-- The macro `utf16lo_to_mutf8`. -/
def utf16loToMutf8 (o : OutBuf) (ch : UInt16) : Res OutBuf :=
  if ch ≠ 0 ∧ ch < 0x80 then o.put ch.toUInt8
  else do
    let o ← (o.grow 1).put ((0xc0 : UInt16) ||| (ch >>> 6)).toUInt8
    o.put ((0x80 : UInt16) ||| (ch &&& 0x3f)).toUInt8

/-- The macro `utf16_to_mutf8`. -/
def utf16ToMutf8 (o : OutBuf) (ch : UInt16) : Res OutBuf :=
  if ch < 0x7ff then utf16loToMutf8 o ch
  else do
    let o ← (o.grow 2).put ((0xe0 : UInt16) ||| (ch >>> 12)).toUInt8
    let o ← o.put ((0x80 : UInt16) ||| ((ch >>> 6) &&& 0x3f)).toUInt8
    o.put ((0x80 : UInt16) ||| (ch &&& 0x3f)).toUInt8

/-- `for (i = 1; i < size; i++)`, with `n` units left. -/
def cs0Loop8 (cs0 : Bytes) : (n i : Nat) → OutBuf → Res OutBuf
  | 0, _, o => .ok o
  | n + 1, i, o => do
    let b ← byteAt cs0 i
    let o ← utf16loToMutf8 o b.toUInt16
    cs0Loop8 cs0 n (i + 1) o

/-- `for (i = 1; i < size - 1; i += 2)`, with `n` units left. -/
def cs0Loop16 (cs0 : Bytes) : (n i : Nat) → OutBuf → Res OutBuf
  | 0, _, o => .ok o
  | n + 1, i, o => do
    let lo ← byteAt cs0 (i + 1)
    let hi ← byteAt cs0 i
    let o ← utf16ToMutf8 o (lo.toUInt16 ||| (hi.toUInt16 <<< 8))
    cs0Loop16 cs0 n (i + 2) o

/-- `udf_cs0_to_mutf8` on the `size` bytes of `cs0`: the bytes of the string before its
terminator, or `none` for `NULL`. -/
def udfCs0ToMutf8 (cs0 : Bytes) : Res (Option Bytes) :=
  if cs0.length < 1 then .ok (some [])
  else do
    let o : OutBuf := { out := [], outSize := cs0.length }
    let id ← byteAt cs0 0
    if id = 8 then
      let o ← cs0Loop8 cs0 (cs0.length - 1) 1 o
      let _ ← o.put 0
      return some o.out
    else if id = 16 then
      let o ← cs0Loop16 cs0 ((cs0.length - 1) / 2) 1 o
      let _ ← o.put 0
      return some o.out
    else return none

end UdfRead
