import InlineCache.Value

/-!
The choices of a compilation, and how they are read from textual settings.
-/

namespace InlineCache

structure Options where
  representation : Representation := .packed
  tagRegisters : TagRegisters := .reserved
  selfChecks : Bool := true
  /-- Whether every exception check first gives the runtime a chance to raise an exception. -/
  exceptionFuzzing : Bool := false
deriving DecidableEq, Repr

structure Settings where
  selfChecks : Option String := none
  exceptionFuzzing : Option String := none
  splitTags : Option String := none
deriving Repr

namespace Text

/-- The characters with the property `White_Space`. -/
def isBlank (c : Char) : Bool :=
  let n := c.toNat
  (0x09 ≤ n && n ≤ 0x0D) || n == 0x20 || n == 0x85 || n == 0xA0 || n == 0x1680
    || (0x2000 ≤ n && n ≤ 0x200A) || n == 0x2028 || n == 0x2029 || n == 0x202F || n == 0x205F
    || n == 0x3000

def trim (s : List Char) : List Char :=
  ((s.dropWhile isBlank).reverse.dropWhile isBlank).reverse

end Text

/-- A setting is on unless it is blank, zero, or says "false", "off" or "no" in whatever case. -/
def Settings.isOn (text : String) : Bool :=
  let word := Text.trim text.toList
  let lower := String.ofList (word.map Char.toLower)
  !(["", "0", "false", "off", "no"].contains lower)

namespace Options

def packed (selfChecks : Bool) : Options :=
  { representation := .packed, selfChecks := selfChecks }

def split (selfChecks : Bool) : Options :=
  { representation := .split, selfChecks := selfChecks }

def ofSettings (s : Settings) : Options :=
  let defaults : Options := {}
  { representation := if (s.splitTags.map Settings.isOn).getD false then .split
      else defaults.representation
    tagRegisters := defaults.tagRegisters
    selfChecks := (s.selfChecks.map Settings.isOn).getD defaults.selfChecks
    exceptionFuzzing := (s.exceptionFuzzing.map Settings.isOn).getD defaults.exceptionFuzzing }

end Options

end InlineCache
