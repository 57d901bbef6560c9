import Iqiq.ByteMemory

namespace Iqiq.LzUncompress

open Iqiq.ByteMemory

/-- The arguments of a call `lzUncompress(input, output, len, outlen)`. -/
structure Args where
  input : Int
  output : Int
  len : Int
  outlen : Int

/-- `end = input + len`. -/
def Args.endptr (a : Args) : Int :=
  a.input + a.len

/-- The address `&output[outlen - 1]` that every store is checked against. -/
def Args.last (a : Args) : Int :=
  a.output + (a.outlen - 1)

/-- The state of a run: memory and the two moving pointers, and a record of the
input addresses loaded and of the addresses stored to so far, in order. -/
structure State where
  mem : Mem
  inptr : Int
  outptr : Int
  loads : List Int
  stores : List Int

/-- The effect of `*inptr++` on the state; the byte itself is `s.mem s.inptr`. -/
def State.advance (s : State) : State :=
  { s with inptr := s.inptr + 1, loads := s.loads ++ [s.inptr] }

def State.put (s : State) (p : Int) (b : UInt8) : State :=
  { s with mem := store s.mem p b, stores := s.stores ++ [p] }

/-- `while (*inptr > 0x7f) inptr++; inptr++;`, cut off after `fuel` tests.  The
flag says whether the loop has ended. -/
def skipLength : Nat → State → State × Bool
  | 0, s => (s, false)
  | fuel + 1, s =>
      if s.mem s.inptr > 0x7f then skipLength fuel s.advance else (s.advance, true)

/-- The one to three distance bytes, assembled at shifts 0, 7 and 15. -/
def readOffset (s : State) : State × UInt64 :=
  let tmp := s.mem s.inptr
  let s := s.advance
  let offset := (tmp &&& 0x7f).toUInt64
  if tmp > 0x7f then
    let tmp := s.mem s.inptr
    let s := s.advance
    let offset := offset ||| ((tmp &&& 0x7f).toUInt64 <<< 7)
    if tmp > 0x7f then
      let tmp := s.mem s.inptr
      let s := s.advance
      (s, offset ||| ((tmp &&& 0x7f).toUInt64 <<< 15))
    else (s, offset)
  else (s, offset)

/-- The address of `p[k]` for an `unsigned long` index: the sum wraps modulo
`2 ^ 64`, so `k` acts as a two's complement number. -/
def element (p : Int) (k : UInt64) : Int :=
  p + k.toInt64.toInt

/-- The copy loop with `n` iterations left, at loop counter `i`.  The flag is
`false` when the output-full test returns 1. -/
def copyLoop (a : Args) (offset : UInt64) : Nat → Nat → State → State × Bool
  | 0, _, s => (s, true)
  | n + 1, i, s =>
      if s.outptr + i > a.last then (s, false)
      else copyLoop a offset n (i + 1)
        (s.put (s.outptr + i) (s.mem (element s.outptr (offset + UInt64.ofNat i))))

/-- The literal loop with `n` iterations left. -/
def literalLoop (a : Args) : Nat → UInt32 → State → State × Bool
  | 0, _, s => (s, true)
  | n + 1, num, s =>
      if s.outptr > a.last then (s, false)
      else
        let b := ((s.mem s.inptr).toUInt32 ^^^ num).toUInt8
        let s := s.advance.put s.outptr b
        literalLoop a n (num + 1) { s with outptr := s.outptr + 1 }

/-- One iteration of the main decompression loop.  The flag is `false` when it
returns 1. -/
def token (a : Args) (s : State) : State × Bool :=
  let c := s.mem s.inptr
  let s := s.advance
  if c > 0x7f then
    let r := readOffset s
    let offset := ~~~r.2
    -- `i` runs from 0 to `(c & 0x7f) + 1` inclusive
    let n := (c &&& 0x7f).toNat + 2
    let q := copyLoop a offset n 0 r.1
    if q.2 then ({ q.1 with outptr := q.1.outptr + n }, true) else q
  else
    let num := 0x55 + UInt32.ofInt (s.inptr - a.input)
    literalLoop a c.toNat num s

/-- The main decompression loop, cut off after `fuel` iterations.  The result
is `none` while the loop is still running. -/
def mainLoop (a : Args) : Nat → State → State × Option Int
  | 0, s => (s, none)
  | fuel + 1, s =>
      if s.inptr < a.endptr then
        let r := token a s
        if r.2 then mainLoop a fuel r.1 else (r.1, some 1)
      else (s, some 0)

/-- `lzUncompress`, with both of its loops cut off after `fuel` steps. -/
def lzUncompress (a : Args) (fuel : Nat) (s : State) : State × Option Int :=
  let r := skipLength fuel { s with inptr := a.input + 4, outptr := a.output }
  if r.2 then mainLoop a fuel r.1 else (r.1, none)

/-- The call returns `ret`, leaving the state `s'`. -/
def Returns (a : Args) (s : State) (ret : Int) (s' : State) : Prop :=
  ∃ fuel, lzUncompress a fuel s = (s', some ret)

/-- `lzParseSize`: the value, and the addresses of the bytes it looks at. -/
def lzParseSize (m : Mem) (input : Int) : Nat × List Int :=
  let total := (m input &&& 0x7f).toNat
  if m input < 0x80 then (total, [input])
  else
    let total := total ||| ((m (input + 1) &&& 0x7f).toNat <<< 7)
    if m (input + 1) < 0x80 then (total, [input, input + 1])
    else
      let total := total ||| ((m (input + 2) &&& 0x7f).toNat <<< 15)
      (total, [input, input + 1, input + 2])

end Iqiq.LzUncompress
