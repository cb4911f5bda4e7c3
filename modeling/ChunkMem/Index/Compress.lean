import ChunkMem.Index.Table

/-!
# Compression

`compress` streams the chunks through `ChkCompressSource` into one
compressed buffer; `uncompress` finds the chunks again by walking the
headers of the decompressed bytes.
-/

namespace ChunkMem

open Foundation

structure ChkCompressSource where
  chkNo : Nat
  isContinuous : Bool
  bytesLeft : Int
  chkOffset : Nat
  ptr : Ptr

namespace ChkCompressSource

/-- `ChkCompressSource::ChkCompressSource`. -/
def make : M ChkCompressSource := do
  let continuous <- ChkIndex.isContinuousChunk
  let idx <- getIndex
  let last <- readChkAddr (idx.chkNum - 1)
  let mgr <- ChkIndex.memMgr
  let total <- load mgr ChkMemMgr.totalCapacity
  let bytes <- ChkMetadata.capacityBytes last
  let v <- load last ChkMetadata.virgin
  let first <- readChkAddr 0
  pure
    { chkNo := 0
      isContinuous := continuous
      bytesLeft := chkCapacity total - bytes + chkSize v
      chkOffset := 0
      ptr := first }

def available (src : ChkCompressSource) : Nat := toSizeT src.bytesLeft

def peek (src : ChkCompressSource) : M (Ptr × Nat) :=
  if src.isContinuous = true then pure (src.ptr, toSizeT src.bytesLeft)
  else do
    let chk <- readChkAddr src.chkNo
    let bytes <- ChkMetadata.capacityBytes chk
    Exec.require (bytes - src.chkOffset ≠ 0) .assertion
    pure (chk.add src.chkOffset, bytes - src.chkOffset)

def skip (src : ChkCompressSource) (n : Nat) : M ChkCompressSource :=
  if n = 0 then pure src
  else if src.isContinuous = true then
    pure { src with bytesLeft := src.bytesLeft - n, ptr := src.ptr.add n }
  else do
    let chk <- readChkAddr src.chkNo
    let bytes <- ChkMetadata.capacityBytes chk
    Exec.require (src.chkOffset + n ≤ bytes) .assertion
    if bytes = src.chkOffset + n then
      pure { src with chkOffset := 0, chkNo := src.chkNo + 1 }
    else pure { src with chkOffset := src.chkOffset + n }

end ChkCompressSource

namespace ChkIndex

variable (env : Env)

/-- The compressor drains its source: it asks `Available` once and takes
that many bytes through `Peek` and `Skip`, cutting where it likes. -/
def drain : Nat -> ChkCompressSource -> Nat -> Nat -> M (List Byte)
  | 0, _, _, left => if left = 0 then pure [] else Exec.fault .diverge
  | fuel + 1, src, taken, left =>
      if left = 0 then pure []
      else do
        let (ptr, len) <- src.peek
        let n := min (min len left) (env.snappy.cut taken)
        let bytes <- loadBytes ptr n
        let src <- src.skip n
        let rest <- drain fuel src (taken + n) (left - n)
        pure (bytes ++ rest)

/-- `chk_compress`: the compressed length, then the compressed bytes. -/
def chkCompress : M Ptr := do
  let reader <- ChkCompressSource.make
  let preallocLen := 4 + Snappy.maxCompressedLength (toSizeT reader.bytesLeft)
  let compressed <- unalignAllocate env preallocLen
  if compressed = Ptr.null then pure Ptr.null
  else do
    let data <- drain env reader.available reader 0 reader.available
    let packed := env.snappy.compress data
    storeBytes (compressed.add 4) packed
    let compressedLength := packed.length + 4
    store compressed ⟨0, 32⟩ compressedLength
    let shrinkBytes <- unalignReallocate env compressed preallocLen compressedLength
    if shrinkBytes = Ptr.null then do
      unalignDellocate compressed
      pure Ptr.null
    else pure shrinkBytes

def compress (targetCompressPercent : Int) : M Int := do
  let idx <- getIndex
  if idx.chkNum = 0 ∨ idx.compressed = true then pure 0
  else do
    let mgr <- memMgr
    let compressedBytes <- chkCompress env
    if compressedBytes = Ptr.null then pure (-1)
    else do
      let compressedLen <- load compressedBytes ⟨0, 32⟩
      let total <- load mgr ChkMemMgr.totalCapacity
      let orgLen := chkCapacity total
      if compressedLen * 100 % 2 ^ 64 >
          toSizeT targetCompressPercent * orgLen % 2 ^ 64 then do
        unalignDellocate compressedBytes
        pure 0
      else do
        destruct env
        writeChkAddr 0 compressedBytes
        modifyIndex fun x => { x with compressed := true }
        pure 0

/-- The loop of `ChkIndex::uncompress` that walks the chunk headers up to
the byte offset `stop`, cut off after `fuel` rounds. -/
def walkLoop (stop : Nat) : Nat -> Ptr -> Nat -> M Nat
  | 0, chkMeta, acc =>
      if chkMeta.off < stop then Exec.fault .diverge else pure acc
  | fuel + 1, chkMeta, acc =>
      if chkMeta.off < stop then do
        store chkMeta ChkMetadata.allocCapacity 0
        let bytes <- ChkMetadata.capacityBytes chkMeta
        if stop - chkMeta.off < bytes then
          store chkMeta ChkMetadata.capacity (setChkCapacity (stop - chkMeta.off))
        else pure ()
        let c <- load chkMeta ChkMetadata.capacity
        let idx <- getIndex
        writeChkAddr idx.chkNum chkMeta
        modifyIndex fun x => { x with chkNum := x.chkNum + 1 }
        walkLoop stop fuel (chkMeta.add (chkCapacity c)) (acc + c)
      else pure acc

/-- The part of `ChkIndex::uncompress` behind the decompression: chunks are
found in the buffer and the compressed bytes are given back. -/
def adopt (compressedBytes uncompressed : Ptr) (alignCapacity : Nat) : M Int := do
  modifyIndex fun x => { x with chkNum := 0 }
  let capacityCaculate <-
    walkLoop (uncompressed.off + alignCapacity) (alignCapacity / 1024 + 1)
      uncompressed 0
  let first <- readChkAddr 0
  store first ChkMetadata.allocCapacity (setChkCapacity alignCapacity)
  let own <- load first ChkMetadata.allocCapacity
  Exec.require (capacityCaculate = own) .assertion
  let mgr <- memMgr
  store mgr ChkMemMgr.totalCapacity own
  unalignDellocate compressedBytes
  modifyIndex fun x => { x with compressed := false }
  if env.uncompressSplit = true then do
    let _ <- splitContinuousChunk env
    pure 0
  else pure 0

def uncompress : M Int := do
  let idx <- getIndex
  if idx.compressed = false then pure 0
  else do
    let compressedBytes <- readChkAddr 0
    let compressedLen <- load compressedBytes ⟨0, 32⟩
    let data <- loadBytes (compressedBytes.add 4) (compressedLen - 4)
    let lengthOk <- sysCall env
    match (if lengthOk then env.snappy.uncompressedLength data else none) with
    | none => pure (-1)
    | some ulength => do
        let alignCapacity := chkAlignCapaicty ulength
        let chkmetaDirectly : Bool :=
          decide (env.uncompressSplit = false ∨ alignCapacity ≤ chkMaxChksize)
        let uncompressed <-
          if chkmetaDirectly = true then allocate env alignCapacity
          else malloc env ulength
        if uncompressed = Ptr.null then pure (-2)
        else do
          let rawOk <- sysCall env
          match (if rawOk then env.snappy.uncompress data else none) with
          | none => do
              if chkmetaDirectly = true then dellocate env uncompressed alignCapacity
              else sysFree uncompressed
              pure (-1)
          | some raw => do
              storeBytes uncompressed raw
              adopt env compressedBytes uncompressed alignCapacity

end ChkIndex
end ChunkMem
