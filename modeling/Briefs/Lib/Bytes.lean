import Mathlib.Tactic

/-!
# Byte buffers

A buffer is a list of bytes. `copyAt` is the bounded copy of one buffer into
another, which drops what does not fit, and the `put`/`get` pairs are the
little-endian integer codecs.
-/

namespace Briefs.Lib

abbrev Bytes := List UInt8

/-- Copy `src` over `buf` from `off` on; bytes past the end of `buf` are dropped. -/
def copyAt (buf : Bytes) (off : ℕ) (src : Bytes) : Bytes :=
  buf.take off ++ src.take (buf.length - off) ++ buf.drop (off + src.length)

def putUint16 (v : UInt16) : Bytes := [v.toUInt8, (v >>> 8).toUInt8]

def getUint16 : Bytes → UInt16
  | b0 :: b1 :: _ => b0.toUInt16 ||| b1.toUInt16 <<< 8
  | _ => 0

def putUint32 (v : UInt32) : Bytes :=
  [v.toUInt8, (v >>> 8).toUInt8, (v >>> 16).toUInt8, (v >>> 24).toUInt8]

def getUint32 : Bytes → UInt32
  | b0 :: b1 :: b2 :: b3 :: _ =>
      b0.toUInt32 ||| b1.toUInt32 <<< 8 ||| b2.toUInt32 <<< 16 ||| b3.toUInt32 <<< 24
  | _ => 0

def putUint64 (v : UInt64) : Bytes :=
  putUint32 v.toUInt32 ++ putUint32 (v >>> 32).toUInt32

def getUint64 (b : Bytes) : UInt64 :=
  (getUint32 b).toUInt64 ||| (getUint32 (b.drop 4)).toUInt64 <<< 32

end Briefs.Lib
