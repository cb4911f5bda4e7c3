import ChunkMem.Session.Programs

/-!
# Strings in an index

`ChkStr` keeps up to seven bytes in its own eight and longer strings in a block.
The eight bytes are passed along; the block lies in the index.
-/

namespace ChunkMem

open Foundation

/-!
## Functions of the C library
-/

/-- `strlen` of a buffer that holds a zero byte. -/
def strlen (l : List Byte) : Nat := (l.takeWhile fun b => decide (b ≠ 0)).length

/-- `strncmp` and, with a folding of letters, `strncasecmp`, on buffers of
at least the length that is compared. -/
def strncmpWith (fold : Byte -> Nat) : List Byte -> List Byte -> Int
  | a :: as, b :: bs =>
      if fold a ≠ fold b then (fold a : Int) - fold b
      else if a = 0 then 0
      else strncmpWith fold as bs
  | _, _ => 0

/-- `tolower` of an unsigned character, in the C locale. -/
def tolower (b : Byte) : Nat :=
  if 65 ≤ b.toNat ∧ b.toNat ≤ 90 then b.toNat + 32 else b.toNat

/-- `toupper` of a signed character, in the C locale: the table of the library has the
number of the unsigned character for it, and -1 for the last one, which is `EOF`. -/
def toupper (b : Byte) : Int :=
  if b.toNat = 255 then -1
  else if 97 ≤ b.toNat ∧ b.toNat ≤ 122 then b.toNat - 32
  else b.toNat

def strncmp : List Byte -> List Byte -> Int := strncmpWith BitVec.toNat

def strncasecmp : List Byte -> List Byte -> Int := strncmpWith tolower

/-!
## The structure
-/

/-- `ChkStr`: either `chk_data` with `data_ptr` (32 bits),
`str_len` (13), `padding` (11) and `flag` (8), or `data[8]`. -/
structure ChkStr where
  bits : Bits

/-- A `const char*`: a buffer of the caller, a place in the eight bytes of the
string at hand, or an address in memory. -/
inductive CharPtr where
  | bytes (l : List Byte)
  | own (i : Nat)
  | mem (p : Ptr)

namespace CharPtr

def add (n : Nat) : CharPtr -> CharPtr
  | bytes l => bytes (l.drop n)
  | own i => own (i + n)
  | mem p => mem (p.add n)

/-- The bytes a `memmove` of `n` bytes reads. -/
def read (x : ChkStr) (n : Nat) : CharPtr -> M (List Byte)
  | bytes l => do
      Exec.require (n ≤ l.length) .badAccess
      pure (l.take n)
  | own i => do
      Exec.require (i + n ≤ 8) .badAccess
      pure (x.bits.bytes i n)
  | mem p => loadBytes p n

end CharPtr

namespace ChkStr

/-- `chk_data.data_ptr`. -/
def dataPtr (x : ChkStr) : ChkPtr := x.bits.readPtr 0

/-- `chk_data.str_len`. -/
def strLen (x : ChkStr) : Nat := x.bits.read 32 13

/-- `chk_data.flag`. -/
def flag (x : ChkStr) : Nat := x.bits.read 56 8

def data (x : ChkStr) : List Byte := x.bits.bytes 0 8

def setDataPtr (x : ChkStr) (p : ChkPtr) : ChkStr := ⟨x.bits.writePtr 0 p⟩

def setStrLen (x : ChkStr) (n : Nat) : ChkStr := ⟨x.bits.write 32 13 n⟩

def setFlag (x : ChkStr) (n : Nat) : ChkStr := ⟨x.bits.write 56 8 n⟩

/-- Bytes stored into `data` from a position on. -/
def store (x : ChkStr) (pos : Nat) (l : List Byte) : ChkStr := ⟨x.bits.writeBytes pos l⟩

def init : ChkStr := ⟨Bits.zero⟩

def length (x : ChkStr) : Nat := if x.flag ≠ 0 then x.strLen else strlen x.data

def cStr (x : ChkStr) : M CharPtr :=
  if x.flag ≠ 0 then do
    let addr <- chkPtr2addr x.dataPtr
    pure (.mem addr)
  else pure (.own 0)

/-- The first `n` bytes behind `c_str`. -/
def cBytes (x : ChkStr) (n : Nat) : M (List Byte) := do
  let p <- x.cStr
  p.read x n

def equall (x rh : ChkStr) (ignoreCase : Bool) : M Bool := do
  let len := x.length
  if len ≠ rh.length then pure false
  else do
    let a <- x.cBytes len
    let b <- rh.cBytes len
    if ignoreCase = false then pure (decide (strncmp a b = 0))
    else pure (decide (strncasecmp a b = 0))

def equallStr (x : ChkStr) (buf : List Byte) (blen : Nat) (ignoreCase : Bool) : M Bool := do
  let len := x.length
  if len ≠ blen then pure false
  else do
    let a <- x.cBytes len
    if ignoreCase = false then pure (decide (strncmp a buf = 0))
    else pure (decide (strncasecmp a buf = 0))

def hashStr (dataTmp : List Byte) (ignoreCase : Bool) : Nat :=
  dataTmp.foldl
    (fun h b => (5 * h + toSizeT (if ignoreCase then toupper b else b.toInt)) % 2 ^ 64) 0

def hash (x : ChkStr) (ignoreCase : Bool) : M Nat := do
  let bytes <- x.cBytes x.length
  pure (hashStr bytes ignoreCase)

variable (env : Env)

def clear (x : ChkStr) : Prog ChkStr := do
  if x.flag ≠ 0 then Prog.free env x.dataPtr else pure ()
  pure init

/-- The block of `ChkStr::set_data` gets the string and a terminating zero. -/
def fill (x : ChkStr) (buf : CharPtr) (bufLen : Nat) : M Unit := do
  let strAddr <- chkPtr2addr x.dataPtr
  let bytes <- buf.read x bufLen
  storeBytes strAddr bytes
  storeBytes (strAddr.add bufLen) [0]

/-- `ChkStr::set_data`: the return value and the string afterwards. -/
def setData (x : ChkStr) (buf : CharPtr) (bufLen : Nat) : Prog (Int × ChkStr) :=
  if bufLen ≤ 7 then do
    let x <-
      if x.flag ≠ 0 then do
        Prog.free env x.dataPtr
        pure (x.setFlag 0)
      else pure x
    let bytes <- Prog.mem (buf.read x bufLen)
    pure (0, (x.store 0 bytes).store bufLen [0])
  else if x.flag ≠ 0 ∧ x.strLen ≥ bufLen then do
    Prog.mem (fill x buf bufLen)
    pure (0, x.setStrLen bufLen)
  else do
    let newPtr <- Prog.alloc env (wrapInt (bufLen + 1))
    if newPtr.IsNull then pure (-1, x)
    else do
      let x <-
        if x.flag ≠ 0 then do
          Prog.free env x.dataPtr
          pure x
        else pure (x.setFlag 1)
      let x := (x.setDataPtr newPtr).setStrLen bufLen
      Prog.mem (fill x buf bufLen)
      pure (0, x)

end ChkStr

end ChunkMem
