/-
HedgeDB/Block.lean

The block format (`src/db/block.h`, `src/db/block.cc`).

A block is one page.  Entries are written from its start: every
`restart_group_size`-th one with its full key, the others with the length of the
prefix shared with the key before and the rest.  The encoder counts the bytes of
the trailer (the offset of each full key, their number and the footer) from the
beginning, so that `_commit` always finds room for it.  The iterator walks over
the entries again; a pointer into the page is the list of bytes from there to its
end, and reading past the end has no result.

The checksum function is a parameter.
-/
import HedgeDB.ByteCodec
import HedgeDB.Varint

namespace HedgeDB

open ByteCodec

def sizeofBlockFooter : ℕ := 8

def maxKeyLen : ℕ := 256

/-- The capacity of an `inline_vector`, `MAX_KEY_LEN * 2` elements: its allocator
throws when more are asked for. -/
def inlineVectorCapacity : ℕ := 512

structure BlockConfig where
  blockSizeInBytes : ℕ := pageSizeInBytes
  restartGroupSize : ℕ := 4

/-- `encode_key_size`: the length less one, cut to a byte. -/
def encodeKeySize (keySize : ℕ) : UInt8 := UInt8.ofNat (keySize + 255)

def decodeKeySize (b : UInt8) : ℕ := b.toNat + 1

theorem decodeKeySize_encodeKeySize {n : ℕ} (h : 1 ≤ n ∧ n ≤ maxKeyLen) :
    decodeKeySize (encodeKeySize n) = n := by
  have hbyte : (encodeKeySize n).toNat = (n + 255) % 256 := UInt8.toNat_ofNat'
  rw [decodeKeySize, hbyte]
  rw [maxKeyLen] at h
  omega

theorem encodeKeySize_decodeKeySize (b : UInt8) : encodeKeySize (decodeKeySize b) = b := by
  have hb : b.toNat < 256 := b.toNat_lt
  apply UInt8.toNat_inj.mp
  rw [encodeKeySize, decodeKeySize, UInt8.toNat_ofNat']
  omega

/-! ### The encoder -/

/-- `block_encoder`: the page from `_base` on, the write position in it, and the
builder state. -/
structure BlockEncoder where
  page : Bytes
  head : ℕ := 0
  lastKey : Bytes := []
  offsets : List ℕ := []
  bytesWritten : ℕ := sizeofBlockFooter + 2
  kvsCount : ℕ := 0
  committed : Bool := false

/-- `_compute_shared_prefix_length`. -/
def sharedPrefixLength : Bytes → Bytes → ℕ
  | a :: prev, b :: curr => if b = a then sharedPrefixLength prev curr + 1 else 0
  | _, _ => 0

/-- A full key with its value. -/
def restartEntry (key value : Bytes) : Bytes :=
  encodeKeySize key.length :: key ++ (unsafeVarint value.length ++ value)

/-- A key behind the prefix it shares with the one before, with its value.  Both
lengths are cut to a byte. -/
def deltaEntry (shared : ℕ) (key value : Bytes) : Bytes :=
  UInt8.ofNat shared :: UInt8.ofNat (key.length - shared) ::
    key.drop shared ++ (unsafeVarint value.length ++ value)

namespace BlockEncoder

/-- `_write_unsafe`: write at the head and move it. -/
def write (e : BlockEncoder) (bytes : Bytes) : BlockEncoder :=
  { e with page := writeAt e.page e.head bytes, head := e.head + bytes.length }

/-- The footer without its checksum: `kv_count` and the unused `block_type`. -/
def footer (kvsCount : ℕ) : Bytes := le 2 kvsCount ++ le 2 0

/-- `_commit`: restart offsets, their number, the footer and the checksum of all
that is before it, at the end of the page. -/
def commit (checksum : Bytes → UInt32) (cfg : BlockConfig) (e : BlockEncoder) : BlockEncoder :=
  let start := cfg.blockSizeInBytes - e.offsets.length * 2 - 2 - sizeofBlockFooter
  let e := { e with head := start }
  let e := e.write (e.offsets.flatMap (le 2))
  let e := e.write (le 2 e.offsets.length)
  let e := e.write (footer e.kvsCount)
  let sum := checksum (e.page.take (cfg.blockSizeInBytes - 4))
  { e.write (le 4 sum.toNat) with committed := true }

/-- `hedge::error("", errc::BUFFER_FULL)`. -/
def bufferFull : Error := { msg := "", code := .bufferFull }

def pushAsRestartKey (checksum : Bytes → UInt32) (cfg : BlockConfig) (e : BlockEncoder)
    (key value : Bytes) : Expected Unit × BlockEncoder :=
  let spaceNeeded := 1 + key.length + varintLength value.length + value.length
  if e.bytesWritten + spaceNeeded + 2 > cfg.blockSizeInBytes then
    (.error bufferFull, e.commit checksum cfg)
  else
    let e := { e with
      lastKey := key
      kvsCount := e.kvsCount + 1
      bytesWritten := e.bytesWritten + (spaceNeeded + 2) }
    if e.offsets.length ≥ inlineVectorCapacity then (.error { msg := "std::bad_alloc" }, e)
    else
      let e := { e with offsets := e.offsets ++ [e.head] }
      (.ok (), e.write (restartEntry key value))

def pushAsDeltaKey (checksum : Bytes → UInt32) (cfg : BlockConfig) (e : BlockEncoder)
    (key value : Bytes) : Expected Unit × BlockEncoder :=
  let shared := sharedPrefixLength e.lastKey key
  let spaceNeeded := 1 + 1 + key.length - shared + varintLength value.length + value.length
  if e.bytesWritten + spaceNeeded > cfg.blockSizeInBytes then
    (.error bufferFull, e.commit checksum cfg)
  else
    let e := { e with
      lastKey := key
      kvsCount := e.kvsCount + 1
      bytesWritten := e.bytesWritten + spaceNeeded }
    (.ok (), e.write (deltaEntry shared key value))

def push (checksum : Bytes → UInt32) (cfg : BlockConfig) (e : BlockEncoder) (key value : Bytes) :
    Expected Unit × BlockEncoder :=
  if key.length > maxKeyLen ∨ key.length = 0 then (.error { msg := "invalid key size" }, e)
  else if e.kvsCount &&& (cfg.restartGroupSize - 1) ≠ 0 then
    e.pushAsDeltaKey checksum cfg key value
  else e.pushAsRestartKey checksum cfg key value

/-- `reset`, onto a page. -/
def reset (page : Bytes) : BlockEncoder := { page }

/-- Push entries until there are none left or one is refused: the accepted ones
and the encoder. -/
def pushAll (checksum : Bytes → UInt32) (cfg : BlockConfig) :
    BlockEncoder → List (Bytes × Bytes) → List (Bytes × Bytes) × BlockEncoder
  | e, [] => ([], e)
  | e, (key, value) :: kvs =>
      match e.push checksum cfg key value with
      | (.error _, e') => ([], e')
      | (.ok _, e') =>
          let r := pushAll checksum cfg e' kvs
          ((key, value) :: r.1, r.2)

end BlockEncoder

/-! ### The decoder -/

structure BlockIterator where
  head : Bytes
  kvIdx : ℕ
  kvsInBlockCount : ℕ
  restartGroupSize : ℕ
  key : Bytes := []
  value : Bytes := []

/-- `resize` of the key buffer, which fills up with zeros. -/
def resizeKey (n : ℕ) (key : Bytes) : Bytes := key.take n ++ List.replicate (n - key.length) 0

namespace BlockIterator

def readByte (it : BlockIterator) : Option (UInt8 × BlockIterator) :=
  match it.head with
  | [] => none
  | b :: rest => some (b, { it with head := rest })

/-- A span of `n` bytes at the head. -/
def readSpan (it : BlockIterator) (n : ℕ) : Option (Bytes × BlockIterator) :=
  if n ≤ it.head.length then some (it.head.take n, { it with head := it.head.drop n }) else none

/-- The size of the value and the value; a varint that does not decode fails an
assertion. -/
def readValue (it : BlockIterator) : Option BlockIterator :=
  match tryDecodeVarint (it.head.take maxVarintLength32) with
  | .error _ => none
  | .ok (valueSize, n) => do
      let it := { it with head := it.head.drop n }
      let (value, it) ← it.readSpan valueSize
      some { it with value }

def readRestartKey (it : BlockIterator) : Option BlockIterator := do
  let (b, it) ← it.readByte
  let (key, it) ← it.readSpan (decodeKeySize b)
  readValue { it with key }

def readDeltaKey (it : BlockIterator) : Option BlockIterator := do
  let (shared, it) ← it.readByte
  let (delta, it) ← it.readByte
  let (suffix, it) ← it.readSpan delta.toNat
  readValue { it with key := resizeKey shared.toNat it.key ++ suffix }

/-- `_read_next`.  The iterator keeps the group size in 32 bits. -/
def readNext (it : BlockIterator) : Option BlockIterator :=
  let currIdx := it.kvIdx
  let it := { it with kvIdx := currIdx + 1 }
  if currIdx ≥ it.kvsInBlockCount then some it
  else if currIdx &&& ((it.restartGroupSize + 2 ^ 32 - 1) % 2 ^ 32) = 0 then it.readRestartKey
  else it.readDeltaKey

/-- Comparison with the sentinel. -/
def atEnd (it : BlockIterator) : Bool := it.kvIdx > it.kvsInBlockCount

/-- The entries from the iterator to the sentinel. -/
def toEnd : ℕ → BlockIterator → Option (List (Bytes × Bytes))
  | 0, _ => some []
  | fuel + 1, it =>
      if it.atEnd then some []
      else do
        let it' ← it.readNext
        let rest ← toEnd fuel it'
        some ((it.key, it.value) :: rest)

end BlockIterator

/-- `block_decoder` over a page: the fields of the footer it reads. -/
structure BlockDecoder where
  page : Bytes
  kvCount : ℕ
  checksum : ℕ

namespace BlockDecoder

/-- `_read_footer`. -/
def reset (cfg : BlockConfig) (page : Bytes) : BlockDecoder :=
  let footer := page.drop (cfg.blockSizeInBytes - sizeofBlockFooter)
  { page, kvCount := ofLe (footer.take 2), checksum := ofLe ((footer.drop 4).take 4) }

def begin (cfg : BlockConfig) (d : BlockDecoder) : Option BlockIterator :=
  BlockIterator.readNext
    { head := d.page, kvIdx := 0, kvsInBlockCount := d.kvCount
      restartGroupSize := cfg.restartGroupSize % 2 ^ 32 }

/-- Everything from `begin` to `end`. -/
def entries (cfg : BlockConfig) (d : BlockDecoder) : Option (List (Bytes × Bytes)) := do
  let it ← d.begin cfg
  it.toEnd (d.kvCount + 1)

def sanityCheck (checksum : Bytes → UInt32) (cfg : BlockConfig) (d : BlockDecoder) :
    Expected Unit :=
  let sum := (checksum (d.page.take (cfg.blockSizeInBytes - 4))).toNat
  if sum ≠ d.checksum then
    .error { msg := "checksum mismatch sum: " ++ toString sum ++ " footer: " ++
      toString d.checksum }
  else .ok ()

end BlockDecoder

end HedgeDB
