import Nmdb.Words

/-! The hash of the cache, MurmurHash2 with a fixed seed. -/
namespace Nmdb

def murmurM : UInt32 := 0x5bd1e995
def murmurSeed : UInt32 := 0x34a4b627

/-- Mix four bytes at a time into the hash; what is left are the last few bytes. -/
def murmurMix : Bytes → UInt32 → UInt32 × Bytes
  | a :: b :: c :: d :: rest, h =>
    let k := a.toUInt32 ||| b.toUInt32 <<< 8 ||| c.toUInt32 <<< 16 ||| d.toUInt32 <<< 24
    let k := k * murmurM
    let k := k ^^^ k >>> 24
    let k := k * murmurM
    murmurMix rest (h * murmurM ^^^ k)
  | tail, h => (h, tail)

/-- The last few bytes of the input. -/
def murmurTail (h : UInt32) : Bytes → UInt32
  | [a] => (h ^^^ a.toUInt32) * murmurM
  | [a, b] => (h ^^^ b.toUInt32 <<< 8 ^^^ a.toUInt32) * murmurM
  | [a, b, c] => (h ^^^ c.toUInt32 <<< 16 ^^^ b.toUInt32 <<< 8 ^^^ a.toUInt32) * murmurM
  | _ => h

def murmurhash2 (key : Bytes) : UInt32 :=
  let (h, tail) := murmurMix key (murmurSeed ^^^ UInt32.ofNat key.length)
  let h := murmurTail h tail
  let h := h ^^^ h >>> 13
  let h := h * murmurM
  h ^^^ h >>> 15

def hash (key : Bytes) : Nat := (murmurhash2 key).toNat

end Nmdb
