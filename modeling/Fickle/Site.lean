import Fickle.Sha256
import Fickle.Text.Hex

/-! # Call sites

Each use of a construct in a program has a number of its own, taken from its place in the source
text or from the number of the composition around it.
-/

namespace Fickle

structure Site where
  id : UInt64
  deriving DecidableEq, Inhabited

namespace Site

def ofSource (file : String) (line column : UInt32) : Site :=
  ⟨Bytes.toWord (Sha256.digest8
    (Bytes.ofText file ++ Bytes.ofNat 4 line.toNat ++ Bytes.ofNat 4 column.toNat))⟩

def rotateLeft17 (x : UInt64) : UInt64 := (x <<< 17) ||| (x >>> 47)

/-- The site of the constituent at `index` of a composition invoked here. -/
def child (s : Site) (index : UInt32) : Site :=
  ⟨rotateLeft17 ((s.id ^^^ (index.toUInt64 + 1)) * 0x517cc1b727220a95) ^^^ s.id⟩

def toBytes (s : Site) : List UInt8 := Bytes.ofWord s.id

def ofBytes (bs : List UInt8) : Site := ⟨Bytes.toWord bs⟩

/-- Sixteen hexadecimal digits. -/
def text (s : Site) : String := Text.hex 16 s.id.toNat

def valueText (s : Site) : String := "Site(" ++ s.text ++ ")"

end Site

end Fickle
