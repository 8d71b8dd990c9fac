import CppUtils.Hash.KeccakRounds
import CppUtils.Lib.Sponge

/-!
# The SHA-3 context and its hasher

`sha3_Update` takes a message in pieces: it keeps the bytes of an unfinished word in `saved` and adds
each finished word to the state.
-/

namespace CppUtils.Hash

abbrev Byte := BitVec 8

/-- `sha3_context`. The words and the bytes of its union are `s`. -/
structure Context where
  saved : BitVec 64
  s : Words
  byteIndex : ℕ
  wordIndex : ℕ
  capacityWords : ℕ

/-- The widths that `Sha3_Hasher` supports. -/
inductive Width
  | bits256
  | bits384
  | bits512
  deriving DecidableEq

def Width.NBits : Width → ℕ
  | .bits256 => 256
  | .bits384 => 384
  | .bits512 => 512

/-- `sha3_Init256`, `sha3_Init384` and `sha3_Init512`. -/
def sha3_Init (width : Width) : Context :=
  ⟨0, Vector.replicate 25 0, 0, 0, 2 * width.NBits / 64⟩

namespace Context

/-- `SHA3_KECCAK_SPONGE_WORDS - capacityWords`. -/
def rateWords (c : Context) : ℕ := 25 - c.capacityWords

def place (index : ℕ) : Fin 25 := ⟨index % 25, Nat.mod_lt _ (by decide)⟩

/-- The next byte of the input goes into `saved`. -/
def saveByte (c : Context) (x : Byte) : Context :=
  { c with saved := c.saved ||| (x.setWidth 64 <<< (c.byteIndex * 8)), byteIndex := c.byteIndex + 1 }

/-- A word goes into the state; the last one of a block is followed by `keccakf`. -/
def addWord (c : Context) (t : BitVec 64) : Context :=
  let s := c.s.xorAt (place c.wordIndex) t
  if c.wordIndex + 1 = c.rateWords then { c with s := keccakf s, wordIndex := 0 }
  else { c with s, wordIndex := c.wordIndex + 1 }

/-- `saved`, now a whole word, goes into the state. -/
def addSaved (c : Context) : Context := { c with saved := 0, byteIndex := 0 }.addWord c.saved

end Context

/-- Eight bytes of the input as a word. -/
def loadWord (buf : List Byte) : BitVec 64 :=
  let byte k := (buf.getD k 0).setWidth 64
  byte 0 ||| (byte 1 <<< (8 * 1)) ||| (byte 2 <<< (8 * 2)) ||| (byte 3 <<< (8 * 3)) |||
    (byte 4 <<< (8 * 4)) ||| (byte 5 <<< (8 * 5)) ||| (byte 6 <<< (8 * 6)) ||| (byte 7 <<< (8 * 7))

def sha3_Update (ctx : Context) (bufIn : List Byte) : Context :=
  let old_tail := (8 - ctx.byteIndex) &&& 7
  if bufIn.length < old_tail then bufIn.foldl Context.saveByte ctx
  else
    let started :=
      if old_tail ≠ 0 then ((bufIn.take old_tail).foldl Context.saveByte ctx).addSaved else ctx
    let buf := bufIn.drop old_tail
    let words := buf.length / 8
    let full := (List.range words).foldl (fun ctx i => ctx.addWord (loadWord (buf.drop (8 * i)))) started
    (buf.drop (8 * words)).foldl Context.saveByte full

def storeWord (w : BitVec 64) : List Byte :=
  let t1 : BitVec 32 := w.setWidth 32
  let t2 : BitVec 32 := ((w >>> 16) >>> 16).setWidth 32
  [t1.setWidth 8, (t1 >>> 8).setWidth 8, (t1 >>> 16).setWidth 8, (t1 >>> 24).setWidth 8,
    t2.setWidth 8, (t2 >>> 8).setWidth 8, (t2 >>> 16).setWidth 8, (t2 >>> 24).setWidth 8]

/-- The suffix `01` and the first bit of the padding. -/
def suffix : BitVec 64 := 0x02#64 ||| (1#64 <<< 2)

/-- The state before the last `keccakf`: the rest of the message and the padding are in it. -/
def padded (ctx : Context) : Words :=
  (ctx.s.xorAt (Context.place ctx.wordIndex)
    (ctx.saved ^^^ (suffix <<< (ctx.byteIndex * 8)))).xorAt
      (Context.place (ctx.rateWords - 1)) 0x8000000000000000

def sha3_Finalize (ctx : Context) : List Byte := (keccakf (padded ctx)).toList.flatMap storeWord

/-- `Sha3_Hasher`, without the flag that only its assertions read. -/
structure Sha3_Hasher (width : Width) where
  c : Context

namespace Sha3_Hasher

variable {width : Width}

def new (width : Width) : Sha3_Hasher width := ⟨sha3_Init width⟩

/-- A piece of length zero does not reach `sha3_Update`. -/
def update (hasher : Sha3_Hasher width) (bufIn : List Byte) : Sha3_Hasher width :=
  if bufIn.length > 0 then ⟨sha3_Update hasher.c bufIn⟩ else hasher

def getHash (hasher : Sha3_Hasher width) : List Byte := (sha3_Finalize hasher.c).take (width.NBits / 8)

/-- The bytes are taken as a word of a machine whose lowest byte comes first. -/
def get64BitHash (hasher : Sha3_Hasher width) : BitVec 64 := loadWord hasher.getHash

end Sha3_Hasher

def sha3_64bit (bufIn : List Byte) : BitVec 64 := ((Sha3_Hasher.new .bits256).update bufIn).get64BitHash

end CppUtils.Hash
