import TaterTOS.Fat32.Disk

/-!
# FAT32: names

A C string is the list of its bytes before the terminator.
-/

namespace TaterTOS.Fat32

open Lib

abbrev Str := List UInt8

def attrVolume : UInt8 := 0x08
def attrDir : UInt8 := 0x10
def attrArchive : UInt8 := 0x20
def attrLfn : UInt8 := 0x0F

def space : UInt8 := 0x20

def dot : UInt8 := 0x2E

def slash : UInt8 := 0x2F

abbrev Record := ℕ → UInt8

namespace Record

variable (e : Record)

def attr : UInt8 := e 11

def isDir : Bool := e.attr &&& attrDir != 0

def isVolume : Bool := e.attr &&& attrVolume != 0

def isLfn : Bool := e.attr == attrLfn

def isEnd : Bool := e 0 == 0x00

def isDeleted : Bool := e 0 == 0xE5

def firstCluster : ℕ := le16 e 20 * 65536 + le16 e 26

def size : ℕ := le32 e 28

def shortName : List UInt8 := (List.range 11).map e

end Record

/-! ### Long names -/

def lfnChecksum83 (name : List UInt8) : UInt8 :=
  name.foldl (fun sum b => (if sum &&& 1 = 1 then (0x80 : UInt8) else 0) + (sum >>> 1) + b) 0

def lfnNameSize : ℕ := 260

structure Lfn where
  name : ℕ → UInt8
  checksum : UInt8
  expectedOrd : ℕ
  valid : ℕ

def Lfn.empty : Lfn := ⟨fun _ => 0, 0, 0, 0⟩

def lfnOffs : List ℕ := [1, 3, 5, 7, 9, 14, 16, 18, 20, 22, 24, 28, 30]

def lfnCopy (e : Record) : List ℕ → ℕ → (ℕ → UInt8) → ℕ → UInt8
  | [], _, name => name
  | o :: os, pos, name =>
    if lfnNameSize - 1 ≤ pos then name
    else
      let ch := le16 e o
      if ch = 0x0000 ∨ ch = 0xFFFF then Function.update name pos 0
      else
        let c : UInt8 := if ch < 0x80 then UInt8.ofNat ch else 0x3F
        lfnCopy e os (pos + 1) (Function.update name pos c)

def Lfn.consume (st : Lfn) (e : Record) : Lfn :=
  let ord := (e 0 &&& 0x1F).toNat
  if ord = 0 then .empty
  else
    let st :=
      if e 0 &&& 0x40 ≠ 0 then { Lfn.empty with checksum := e 13, expectedOrd := ord, valid := 1 }
      else st
    if st.valid = 0 then st
    else if e 13 ≠ st.checksum then .empty
    else if ord ≠ st.expectedOrd then .empty
    else if lfnNameSize - 1 ≤ (ord - 1) * 13 then .empty
    else
      let left := st.expectedOrd - 1
      { st with
        name := lfnCopy e lfnOffs ((ord - 1) * 13) st.name
        expectedOrd := left
        valid := if left = 0 then 2 else st.valid }

def Lfn.str (st : Lfn) : Str := ((List.range lfnNameSize).map st.name).takeWhile (· != 0)

def Lfn.names (st : Lfn) (e : Record) : Bool :=
  st.valid == 2 && lfnChecksum83 e.shortName == st.checksum

/-! ### Comparison -/

def upper (c : UInt8) : UInt8 := if 0x61 ≤ c ∧ c ≤ 0x7A then c - 32 else c

def lower (c : UInt8) : UInt8 := if 0x41 ≤ c ∧ c ≤ 0x5A then c + 32 else c

def padTo (n : ℕ) (l : List UInt8) : List UInt8 := l ++ List.replicate (n - l.length) space

/-- The name that `name_match_83` compares with: eight bytes up to a dot, and three bytes after it.
Without a dot after the eighth byte at most, there is no extension. -/
def name83 (name : Str) : List UInt8 :=
  let base := (name.takeWhile (· != dot)).take 8
  let rest := name.drop base.length
  let ext := if rest.head? = some dot then rest.tail.take 3 else []
  (padTo 8 base ++ padTo 3 ext).map upper

def nameMatch83 (e : Record) (name : Str) : Bool := e.shortName == name83 name

def nameMatchLfn (lfn name : Str) : Bool := lfn.map lower == name.map lower

def matchName (st : Lfn) (e : Record) (name : Str) : Bool :=
  (st.names e && nameMatchLfn st.str name) || nameMatch83 e name

/-! ### New names -/

/-- The bytes that the base of a short name must not have: space, quote, slash, backslash, brackets,
semicolon, equals sign, comma. -/
def badBase : List UInt8 := [0x20, 0x22, 0x2F, 0x5C, 0x5B, 0x5D, 0x3B, 0x3D, 0x2C]

def buildShortName (name : Str) : Option (List UInt8) :=
  if name.length = 0 ∨ 12 < name.length then none
  else
    let base := name.takeWhile (· != dot)
    let ext := (name.drop base.length).tail
    if 8 < base.length ∨ base.length = 0 then none
    else if (base.map upper).any (badBase.contains ·) then none
    else if 3 < ext.length then none
    else some (padTo 8 (base.map upper) ++ padTo 3 (ext.map upper))

/-! ### Paths -/

def nameSize : ℕ := 260

/-- The loops that take a path apart, with the length of the path as `fuel`: a name stops at a slash
and after 259 bytes, and one slash is skipped. -/
def componentsAux : ℕ → Str → List Str
  | 0, _ => []
  | _, [] => []
  | fuel + 1, p =>
    let name := (p.takeWhile (· != slash)).take (nameSize - 1)
    let rest := p.drop name.length
    name :: componentsAux fuel (if rest.head? = some slash then rest.tail else rest)

def components (p : Str) : List Str := componentsAux p.length p

def relative (path : Str) : Str := if path.head? = some slash then path.tail else path

def splitPath (path : Str) : Option (Str × Str) :=
  let p := relative path
  if p = [] then none
  else
    let name := (p.reverse.takeWhile (· != slash)).reverse
    if name.length = p.length then some ([], p.take (nameSize - 1))
    else
      let parent := p.take (p.length - name.length - 1)
      if nameSize ≤ parent.length + 1 then none else some (parent, name.take (nameSize - 1))

end TaterTOS.Fat32
