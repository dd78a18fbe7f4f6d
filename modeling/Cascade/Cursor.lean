import Cascade.Diagnostic

/-!
# Cursors

A cursor reads component values from the front.  The body of an included mixin
is put in front of what is left to read, followed by a marker; the mixin counts
as being expanded until its marker is passed.  Markers are invisible to a reader:
what it sees is the list `Cursor.rest`.

**Results.** Looking ahead is looking into `rest` (`peek_eq_getElem?`), reading
takes its head (`next_fst`, `rest_next`), and splicing puts values in front of it
(`rest_splice`, `rest_spliceExpansion`).
-/

namespace Cascade

/-- What a cursor holds: values, and the markers that end the bodies of included mixins. -/
inductive Item where
  | value (value : Value)
  | marker (mixin : String)
deriving Repr, Inhabited

namespace Item

/-- The value of an item. -/
def value? : Item → Option Value
  | .value v => some v
  | .marker _ => none

/-- The first value of an item list. -/
def first? : List Item → Option Value
  | [] => none
  | .value v :: _ => some v
  | .marker _ :: rest => first? rest

/-- The value at an offset; markers do not count. -/
def peek? : List Item → Nat → Option Value
  | [], _ => none
  | .marker _ :: rest, n => peek? rest n
  | .value v :: _, 0 => some v
  | .value _ :: rest, n + 1 => peek? rest n

/-- The number of whitespace values at the front; markers do not count. -/
def blankCount : List Item → Nat
  | [] => 0
  | .marker _ :: rest => blankCount rest
  | .value v :: rest => if v.isWhitespace then blankCount rest + 1 else 0

end Item

/-- A reader over component values. -/
structure Cursor where
  /-- What is left to read. -/
  items : List Item
  /-- The expansions that were under way when the cursor was made. -/
  baseDepth : Nat
  /-- The mixins being expanded, the most recent first. -/
  expansions : List String
  /-- The place of the value read last; of the first value before any is read. -/
  last : Position
deriving Repr, Inhabited

namespace Cursor

/-- A cursor over values. -/
def ofValues (vs : List Value) (baseDepth : Nat) : Cursor :=
  ⟨vs.map .value, baseDepth, [], (vs.head?.map Value.start).getD Position.none⟩

/-- A cursor over the tokens of a source.  Without any, its place is that of the end token. -/
def ofTokens (ts : List Token) : Cursor :=
  let c := ofValues (valuesOf ts) 0
  if c.items.isEmpty then
    let ends := ts.filter fun t => t.type == .eof
    { c with last := (ends.getLast?.map Token.position).getD Position.none }
  else
    c

/-- The values left to read. -/
def rest (c : Cursor) : List Value :=
  c.items.filterMap Item.value?

/-- The value at an offset. -/
def peek (c : Cursor) (n : Nat) : Option Value :=
  Item.peek? c.items n

/-- The token at an offset, if the value there is one. -/
def peekToken (c : Cursor) (n : Nat) : Option Token :=
  match c.peek n with
  | some (.token t) => some t
  | _ => none

/-- The value at an offset is a token of the given type. -/
def check (c : Cursor) (n : Nat) (type : TokenType) : Bool :=
  (c.peek n).any (·.hasType type)

/-- The value at an offset is the given delimiter. -/
def checkDelim (c : Cursor) (n : Nat) (text : String) : Bool :=
  (c.peek n).any (·.isDelim text)

/-- Nothing is left to read. -/
def atEnd (c : Cursor) : Bool :=
  (c.peek 0).isNone

/-- The items behind the markers at the front, and the expansions still under way there. -/
def dropMarkers : List Item → List String → List Item × List String
  | .marker _ :: rest, names => dropMarkers rest names.tail
  | items, names => (items, names)

/-- Reads the front value, passing the markers before it. -/
def next (c : Cursor) : Option Value × Cursor :=
  match dropMarkers c.items c.expansions with
  | (.value v :: rest, names) => (some v, { c with items := rest, expansions := names, last := v.start })
  | (items, names) => (none, { c with items := items, expansions := names })

/-- The front whitespace of an item list is read: what is left, with the expansions and the place. -/
def skipBlanks : List Item → List String → Position → List Item × List String × Position
  | [], names, last => ([], names, last)
  | .value v :: rest, names, last =>
    if v.isWhitespace then skipBlanks rest names v.start else (.value v :: rest, names, last)
  | .marker m :: rest, names, last =>
    if (Item.first? rest).any Value.isWhitespace then
      skipBlanks rest names.tail last
    else
      (.marker m :: rest, names, last)

/-- Reads the whitespace at the front. -/
def skipWhitespace (c : Cursor) : Cursor :=
  let (items, names, last) := skipBlanks c.items c.expansions c.last
  { c with items := items, expansions := names, last := last }

/-- The offset of the first value that is not whitespace. -/
def blankOffset (c : Cursor) : Nat :=
  Item.blankCount c.items

/-- Puts values in front. -/
def splice (c : Cursor) (vs : List Value) : Cursor :=
  { c with items := vs.map .value ++ c.items }

/-- Puts the body of a mixin in front, which counts as being expanded until it has been read. -/
def spliceExpansion (c : Cursor) (mixin : String) (vs : List Value) : Cursor :=
  { c with
    items := vs.map .value ++ .marker mixin :: c.items
    expansions := mixin :: c.expansions }

/-- The next item ends the body of a mixin. -/
def atExpansionEnd (c : Cursor) : Bool :=
  match c.items with
  | .marker _ :: _ => true
  | _ => false

/-- The number of mixins being expanded, here and around. -/
def depth (c : Cursor) : Nat :=
  c.baseDepth + c.expansions.length

/-- A fault at the value at an offset. -/
def faultAt (c : Cursor) (n : Nat) (cause : Cause) : Diagnostic :=
  .located cause ((c.peek n).map Value.witness) c.last

/-! ## The view as a list -/

theorem peek?_eq_getElem? (items : List Item) (n : Nat) :
    Item.peek? items n = (items.filterMap Item.value?)[n]? := by
  fun_induction Item.peek? items n with
  | case1 => simp
  | case2 _ _ _ ih => simpa [Item.value?, List.filterMap_cons] using ih
  | case3 => simp [Item.value?]
  | case4 _ _ _ ih => simpa [Item.value?] using ih

/-- Looking ahead is looking into the rest. -/
theorem peek_eq_getElem? (c : Cursor) (n : Nat) :
    c.peek n = c.rest[n]? :=
  peek?_eq_getElem? c.items n

theorem filterMap_dropMarkers (items : List Item) (names : List String) :
    (dropMarkers items names).1.filterMap Item.value? = items.filterMap Item.value? := by
  fun_induction dropMarkers items names with
  | case1 _ _ _ ih => simpa [Item.value?, List.filterMap_cons] using ih
  | case2 => rfl

theorem dropMarkers_ne_marker (items : List Item) (names : List String) {m : String}
    {rest : List Item} (h : (dropMarkers items names).1 = .marker m :: rest) : False := by
  fun_induction dropMarkers items names with
  | case1 _ _ _ ih => exact ih h
  | case2 items names hne => exact hne m rest h

/-- Reading gives the head of the rest. -/
theorem next_fst (c : Cursor) :
    c.next.1 = c.rest.head? := by
  have hrest := filterMap_dropMarkers c.items c.expansions
  have hmark := @dropMarkers_ne_marker c.items c.expansions
  unfold next rest
  revert hrest hmark
  rcases dropMarkers c.items c.expansions with ⟨_ | ⟨_ | m, rest⟩, names⟩ <;> intro hrest hmark
  · simp [← hrest]
  · simp [← hrest, Item.value?]
  · exact (hmark rfl).elim

/-- Reading leaves the tail of the rest. -/
theorem rest_next (c : Cursor) :
    c.next.2.rest = c.rest.tail := by
  have hrest := filterMap_dropMarkers c.items c.expansions
  have hmark := @dropMarkers_ne_marker c.items c.expansions
  unfold next rest
  revert hrest hmark
  rcases dropMarkers c.items c.expansions with ⟨_ | ⟨_ | m, rest⟩, names⟩ <;> intro hrest hmark
  · simp [← hrest]
  · simp [← hrest, Item.value?]
  · exact (hmark rfl).elim

theorem first?_eq_head? (items : List Item) :
    Item.first? items = (items.filterMap Item.value?).head? := by
  fun_induction Item.first? items with
  | case1 => rfl
  | case2 => simp [Item.value?]
  | case3 _ _ ih => simpa [Item.value?, List.filterMap_cons] using ih

theorem filterMap_skipBlanks (items : List Item) (names : List String) (last : Position) :
    (skipBlanks items names last).1.filterMap Item.value? =
      (items.filterMap Item.value?).dropWhile Value.isWhitespace := by
  fun_induction skipBlanks items names last with
  | case1 => simp
  | case2 v rest names last hblank ih => simpa [Item.value?, hblank] using ih
  | case3 v rest names last hblank => simp [Item.value?, hblank]
  | case4 m rest names last hblank ih => simpa [Item.value?, List.filterMap_cons] using ih
  | case5 m rest names last hblank =>
    rw [first?_eq_head?] at hblank
    cases h : rest.filterMap Item.value? with
    | nil => simp [Item.value?, List.filterMap_cons, h]
    | cons v vs =>
      have hv : v.isWhitespace = false := by simpa [h] using hblank
      simp [Item.value?, List.filterMap_cons, h, hv]

/-- Reading the whitespace at the front drops it from the rest. -/
theorem rest_skipWhitespace (c : Cursor) :
    c.skipWhitespace.rest = c.rest.dropWhile Value.isWhitespace :=
  filterMap_skipBlanks c.items c.expansions c.last

/-- Splicing puts the values in front of the rest. -/
@[simp] theorem rest_splice (c : Cursor) (vs : List Value) :
    (c.splice vs).rest = vs ++ c.rest := by
  simp [splice, rest, List.filterMap_map, Function.comp_def, Item.value?]

/-- An expansion puts its body in front of the rest. -/
@[simp] theorem rest_spliceExpansion (c : Cursor) (mixin : String) (vs : List Value) :
    (c.spliceExpansion mixin vs).rest = vs ++ c.rest := by
  simp [spliceExpansion, rest, List.filterMap_map, List.filterMap_cons, Function.comp_def, Item.value?]

end Cursor

/-! ## Scanning -/

/-- A computation that reads from a cursor.  It keeps the cursor where a fault stopped it. -/
abbrev Scan :=
  EStateM Diagnostic Cursor

namespace Scan

/-- A look at the cursor. -/
def look (f : Cursor → α) : Scan α :=
  fun c => .ok (f c) c

/-- Reads the front value. -/
def next : Scan (Option Value) :=
  fun c => .ok c.next.1 c.next.2

/-- Reads the whitespace at the front. -/
def skipWhitespace : Scan Unit :=
  fun c => .ok () c.skipWhitespace

/-- Stops with a fault at the value at an offset. -/
def failAt (n : Nat) (cause : Cause) : Scan α :=
  fun c => .error (c.faultAt n cause) c

/-- Reads a token of a type, or stops with the words for what was expected. -/
def consume (type : TokenType) (what : String) : Scan Token :=
  fun c =>
    match c.peekToken 0 with
    | some t =>
      if t.type = type then .ok t c.next.2
      else .error (c.faultAt 0 (.expected what (describeOption (c.peek 0)))) c
    | none => .error (c.faultAt 0 (.expected what (describeOption (c.peek 0)))) c

/-- Reads a delimiter, or stops with the words for what was expected. -/
def consumeDelim (text what : String) : Scan Token :=
  fun c =>
    match c.peekToken 0 with
    | some t =>
      if t.isDelim text then .ok t c.next.2
      else .error (c.faultAt 0 (.expected what (describeOption (c.peek 0)))) c
    | none => .error (c.faultAt 0 (.expected what (describeOption (c.peek 0)))) c

/-- Reads a value of a shape. -/
def consumeShape (wanted : Value.Shape) : Scan Value :=
  fun c =>
    match c.peek 0 with
    | some v =>
      if v.shape = wanted then .ok v c.next.2
      else .error (c.faultAt 0 (.shape wanted (describeOption (c.peek 0)))) c
    | none => .error (c.faultAt 0 (.shape wanted (describeOption (c.peek 0)))) c

end Scan
end Cascade
