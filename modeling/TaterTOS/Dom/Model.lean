import TaterTOS.Lib.DList
import TaterTOS.Lib.Text

/-!
# The document tree

A model of the node pool in `user/apps/ts_dom.h`: `ts_dom_alloc_node`, `ts_dom_free_node`,
`ts_dom_append_child`, `ts_dom_remove_child`, `ts_dom_insert_before`, `ts_dom_set_text_content` and
`ts_dom_build_from_html`. The links of a node are pool indices or `-1`; the model has an `Option`
for them and one function per field. Node ids come from scripts and are any integers.

The hooks of custom elements run scripts in the middle of a call; here they are any functions on the
pool. Left out are attributes, styles, listeners and the bytes of text nodes, which no link depends
on. The tokens of a page are given.
-/

namespace TaterTOS.Dom

open Function Lib DList Text

@[irreducible] def maxNodes : ℕ := 4096
def tagMax : ℕ := 32

inductive Kind
  | document
  | element
  | text
  | comment
  deriving DecidableEq, Repr

structure Pool where
  used : ℕ → Bool
  kind : ℕ → Kind
  tag : ℕ → Text
  parent : ℕ → Option ℕ
  firstChild : ℕ → Option ℕ
  lastChild : ℕ → Option ℕ
  nextSibling : ℕ → Option ℕ
  prevSibling : ℕ → Option ℕ

def Pool.empty : Pool :=
  ⟨fun _ => false, fun _ => .document, fun _ => [], fun _ => none, fun _ => none, fun _ => none,
    fun _ => none, fun _ => none⟩

/-- The hooks `on_connected` and `on_disconnected`, with the node they are called for. -/
structure Hooks where
  onConnected : Pool → ℕ → Pool
  onDisconnected : Pool → ℕ → Pool

def Hooks.null : Hooks := ⟨fun d _ => d, fun d _ => d⟩

def tsDomGetNode (d : Pool) (id : ℤ) : Option ℕ :=
  if id < 0 ∨ id ≥ maxNodes then none
  else if d.used id.toNat then some id.toNat else none

def Pool.fresh (d : Pool) (i : ℕ) (kind : Kind) (tag : Text) : Pool where
  used := update d.used i true
  kind := update d.kind i kind
  tag := update d.tag i tag
  parent := update d.parent i none
  firstChild := update d.firstChild i none
  lastChild := update d.lastChild i none
  nextSibling := update d.nextSibling i none
  prevSibling := update d.prevSibling i none

def tsDomAllocNode (d : Pool) (kind : Kind) (tag : Text) : Option (ℕ × Pool) :=
  ((List.range maxNodes).find? fun i => !d.used i).map fun i => (i, d.fresh i kind tag)

/-! ### Links -/

def unlink (d : Pool) (old c : ℕ) : Pool :=
  let d := if (tsDomGetNode d old).isSome then { d with
    firstChild := if d.firstChild old = some c then
      update d.firstChild old (d.nextSibling c) else d.firstChild
    lastChild := if d.lastChild old = some c then
      update d.lastChild old (d.prevSibling c) else d.lastChild }
    else d
  let d := { d with nextSibling := put d.nextSibling (d.prevSibling c) (d.nextSibling c) }
  { d with prevSibling := put d.prevSibling (d.nextSibling c) (d.prevSibling c) }

def link (d : Pool) (p c : ℕ) : Pool :=
  let d := { d with
    parent := update d.parent c (some p)
    nextSibling := update d.nextSibling c none
    prevSibling := update d.prevSibling c (d.lastChild p) }
  let d := { d with
    nextSibling := put d.nextSibling (d.lastChild p) (some c)
    lastChild := update d.lastChild p (some c) }
  { d with firstChild := if d.firstChild p = none then
      update d.firstChild p (some c) else d.firstChild }

section

variable (hooks : Hooks)

def tsDomAppendChild (d : Pool) (parent child : ℤ) : Pool :=
  match tsDomGetNode d parent, tsDomGetNode d child with
  | some p, some c =>
    let d := match d.parent c with
      | none => link d p c
      | some old => link (unlink d old c) p c
    hooks.onConnected d c
  | _, _ => d

def clear (d : Pool) (c : ℕ) : Pool :=
  { d with
    parent := update d.parent c none
    nextSibling := update d.nextSibling c none
    prevSibling := update d.prevSibling c none }

def tsDomRemoveChild (d : Pool) (parent child : ℤ) : Pool :=
  match tsDomGetNode d parent, tsDomGetNode d child with
  | some p, some c =>
    if d.parent c = some p then clear (hooks.onDisconnected (unlink d p c) c) c else d
  | _, _ => d

def linkBefore (d : Pool) (p new ref : ℕ) : Pool :=
  let d := { d with
    parent := update d.parent new (some p)
    nextSibling := update d.nextSibling new (some ref)
    prevSibling := update d.prevSibling new (d.prevSibling ref) }
  let d := { d with nextSibling := put d.nextSibling (d.prevSibling ref) (some new) }
  let d := { d with prevSibling := update d.prevSibling ref (some new) }
  { d with firstChild := if d.firstChild p = some ref then
      update d.firstChild p (some new) else d.firstChild }

def tsDomInsertBefore (d : Pool) (parent new ref : ℤ) : Pool :=
  match tsDomGetNode d parent, tsDomGetNode d new with
  | some p, some n => match tsDomGetNode d ref with
    | none => tsDomAppendChild hooks d parent new
    | some r =>
      let d := match d.parent n with
        | none => d
        | some old => tsDomRemoveChild hooks d old new
      linkBefore d p n r
  | _, _ => d

/-! ### Freeing -/

def freeChildren : ℕ → Pool → Option ℕ → Option Pool
  | 0, _, _ => none
  | _ + 1, d, none => some d
  | fuel + 1, d, some c =>
    let next := d.nextSibling c
    let freed := match tsDomGetNode d c with
      | none => some d
      | some n => (freeChildren fuel d (d.firstChild n)).map fun d : Pool =>
          { d with used := update d.used n false }
    freed.bind fun d => freeChildren fuel d next

def setOnlyText (d : Pool) (node : ℤ) (n : ℕ) (text : Text) : Pool :=
  let d := { d with
    firstChild := update d.firstChild n none
    lastChild := update d.lastChild n none }
  if d.kind n = .text then d
  else if text.length > 0 then
    match tsDomAllocNode d .text [] with
    | none => d
    | some (i, d) => tsDomAppendChild hooks d node i
  else d

def tsDomSetTextContent (d : Pool) (node : ℤ) (text : Text) : Option Pool :=
  match tsDomGetNode d node with
  | none => some d
  | some n => (freeChildren (maxNodes + 1) d (d.firstChild n)).map fun d =>
      setOnlyText hooks d node n text

/-! ### Pages -/

inductive Token
  | tagOpen (name : Text)
  | tagSelfClose (name : Text)
  | tagClose (name : Text)
  | text (s : Text)
  | comment (s : Text)
  | other
  deriving DecidableEq, Repr

def voids : List Text :=
  ["area", "base", "br", "col", "embed", "hr", "img", "input", "link", "meta", "param", "source",
    "track", "wbr"].map ofString

def tsHtmlIsVoidElement (name : Text) : Bool := voids.any fun v => fold name == v

def tagOf (name : Text) : Text := fold (name.take (tagMax - 1))

def isTrivial (s : Text) : Bool :=
  s.all (fun c => c == 32 || c == 9 || c == 10 || c == 13) && decide (s.length < 4)

/-- The parent for the next node: the innermost open element, or the node of the call. -/
def current (base : ℤ) : List ℕ → ℤ
  | [] => base
  | i :: _ => i

def closeTag (d : Pool) (tag : Text) : List ℕ → List ℕ
  | [] => []
  | i :: rest =>
    if (tsDomGetNode d i).isSome && decide (d.tag i = tag) then rest else closeTag d tag rest

def addNode (d : Pool) (base : ℤ) (stack : List ℕ) (kind : Kind) (tag : Text) : Option (ℕ × Pool) :=
  (tsDomAllocNode d kind tag).map fun r =>
  (r.1, tsDomAppendChild hooks r.2 (current base stack) r.1)

def buildLoop (base : ℤ) : List Token → List ℕ → Pool → Pool
  | [], _, d => d
  | t :: ts, stack, d => match t with
    | .tagOpen name => match addNode hooks d base stack .element (tagOf name) with
      | none => d
      | some (i, d) =>
        if !tsHtmlIsVoidElement (tagOf name) && decide (stack.length < 63) then
          buildLoop base ts (i :: stack) d
        else buildLoop base ts stack d
    | .tagSelfClose name => match addNode hooks d base stack .element (tagOf name) with
      | none => d
      | some (_, d) => buildLoop base ts stack d
    | .tagClose name => buildLoop base ts (closeTag d (tagOf name) stack) d
    | .text s =>
      if isTrivial s then buildLoop base ts stack d
      else match addNode hooks d base stack .text [] with
        | none => d
        | some (_, d) => buildLoop base ts stack d
    | .comment _ => match addNode hooks d base stack .comment [] with
      | none => d
      | some (_, d) => buildLoop base ts stack d
    | .other => buildLoop base ts stack d

def tsDomBuildFromHtml (d : Pool) (tokens : List Token) (parent : ℤ) : Pool :=
  buildLoop hooks parent tokens [] d

/-! ### Calls -/

inductive Op
  | create (kind : Kind) (tag : Text)
  | appendChild (parent child : ℤ)
  | insertBefore (parent new ref : ℤ)
  | removeChild (parent child : ℤ)
  | setTextContent (node : ℤ) (text : Text)
  | buildFromHtml (tokens : List Token) (parent : ℤ)

def step (d : Pool) : Op → Option Pool
  | .create kind tag => some (((tsDomAllocNode d kind tag).map Prod.snd).getD d)
  | .appendChild parent child => some (tsDomAppendChild hooks d parent child)
  | .insertBefore parent new ref => some (tsDomInsertBefore hooks d parent new ref)
  | .removeChild parent child => some (tsDomRemoveChild hooks d parent child)
  | .setTextContent node text => tsDomSetTextContent hooks d node text
  | .buildFromHtml tokens parent => some (tsDomBuildFromHtml hooks d tokens parent)

end

/-- Each call comes with the hooks it meets. -/
def run (d : Pool) : List (Hooks × Op) → Option Pool
  | [] => some d
  | (hooks, op) :: ops => (step hooks d op).bind fun d => run d ops

end TaterTOS.Dom
