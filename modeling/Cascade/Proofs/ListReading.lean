import Cascade.Proofs.Expansions

/-!
# Reading from a cursor is reading from a list

Whatever is done to a cursor, and in whatever order, its answers are those of a plain
list of values that is read from the front: the markers in it can be seen in no answer
and in no fault.

**Method.**  A `ValueList` is what a cursor shows, the values left to read and the place
of the last one that was read.  `Operation.run` and `Operation.onList` do an operation to
a cursor and to a list; `view` commutes with each of them (`Operation.view_run`), and so
with any sequence (`perform_view`).  Whitespace is skipped in one scan, which is reading
one value after the other (`skipWhitespace_eq`).

**Results.**
* `Operation.view_run`: one operation on a cursor is the same operation on what it shows.
* `Operation.run_eq_of_fault`: a fault leaves the cursor where it was.
* `Operation.names_run`: the mixins being expanded are those whose markers are left.
* `perform_refines`: all of this after any sequence of operations.
-/

namespace Cascade

/-! ## Lists that are read -/

/-- What an operation answers: a value, if there is one, or a fault. -/
abbrev Answer :=
  Except Diagnostic (Option Value)

/-- A list of values that is read from the front, and the place of the value read last. -/
structure ValueList where
  values : List Value
  last : Position

namespace ValueList

/-- Reads the front value. -/
def next (l : ValueList) : Answer × ValueList :=
  match l.values with
  | [] => (.ok none, l)
  | v :: vs => (.ok (some v), ⟨vs, v.start⟩)

/-- Reads the front value if it is a wanted one; otherwise that is a fault. -/
def expect (l : ValueList) (wanted : Value → Bool) (cause : String → Cause) : Answer × ValueList :=
  match l.values with
  | [] => (.error (.located (cause (describeOption none)) none l.last), l)
  | v :: vs =>
    if wanted v then (.ok (some v), ⟨vs, v.start⟩)
    else (.error (.located (cause (describeOption (some v))) (some v.witness) l.last), l)

/-- Reads the whitespace at the front of some values. -/
def skipFrom : List Value → Position → ValueList
  | [], last => ⟨[], last⟩
  | v :: vs, last => if v.isWhitespace then skipFrom vs v.start else ⟨v :: vs, last⟩

/-- Reads the whitespace at the front. -/
def skipWhitespace (l : ValueList) : ValueList :=
  skipFrom l.values l.last

end ValueList

namespace Cursor

/-- What a cursor shows. -/
def view (c : Cursor) : ValueList :=
  ⟨c.rest, c.last⟩

/-! ## One value after the other -/

variable {c : Cursor}

/-- Reading the front value is reading that of the list. -/
theorem view_next (c : Cursor) :
    (Except.ok c.next.1, c.next.2.view) = c.view.next := by
  have hrest := filterMap_dropMarkers c.items c.expansions
  have hmark := @dropMarkers_ne_marker c.items c.expansions
  unfold view ValueList.next next rest
  revert hrest hmark
  rcases dropMarkers c.items c.expansions with ⟨_ | ⟨v | m, rest⟩, names⟩ <;> intro hrest hmark
  · simp [← hrest]
  · simp [← hrest, Item.value?]
  · exact (hmark rfl).elim

/-- At the end nothing is read, and the place is kept. -/
theorem view_next_of_end (h : c.rest = []) :
    c.next.1 = none ∧ c.next.2.view = c.view := by
  have hnext := view_next c
  simp only [view, ValueList.next, h, Prod.mk.injEq, Except.ok.injEq] at hnext
  exact ⟨hnext.1, hnext.2.trans (by rw [view, h])⟩

theorem view_next_of_cons {v : Value} {vs : List Value} (h : c.rest = v :: vs) :
    c.next.1 = some v ∧ c.next.2.view = ⟨vs, v.start⟩ := by
  have hnext := view_next c
  simpa only [view, ValueList.next, h, Prod.mk.injEq, Except.ok.injEq] using hnext

theorem check_eq (type : TokenType) (c : Cursor) :
    c.check 0 type = c.rest.head?.any (·.hasType type) := by
  rw [check, peek_eq_getElem?, List.head?_eq_getElem?]

/-- Whitespace is skipped by reading one value after the other. -/
theorem skipWhitespace_eq (c : Cursor) :
    c.skipWhitespace = if c.check 0 .whitespace then c.next.2.skipWhitespace else c := by
  obtain ⟨items, base, names, last⟩ := c
  simp only [check, peek, skipWhitespace, next]
  fun_induction skipBlanks items names last with
  | case1 => simp [Item.peek?]
  | case2 v rest names last hblank ih =>
      have htype : v.hasType .whitespace = true := hblank
      simp [Item.peek?, dropMarkers, htype]
  | case3 v rest names last hblank =>
      have htype : v.hasType .whitespace = false := by simpa [Value.isWhitespace] using hblank
      simp [Item.peek?, htype]
  | case4 m rest names last hblank ih =>
      have hfirst : (Item.peek? rest 0).any (·.hasType .whitespace) = true := by
        rwa [peek?_eq_getElem?, ← List.head?_eq_getElem?, ← first?_eq_head?]
      simp only [Item.peek?, dropMarkers, hfirst, if_true] at ih ⊢
      exact ih
  | case5 m rest names last hblank =>
      have hfirst : ¬ (Item.peek? rest 0).any (·.hasType .whitespace) = true := by
        rwa [peek?_eq_getElem?, ← List.head?_eq_getElem?, ← first?_eq_head?]
      simp [Item.peek?, hfirst]

/-- Skipping whitespace is skipping it in the list. -/
theorem view_skipWhitespace (c : Cursor) :
    c.skipWhitespace.view = c.view.skipWhitespace := by
  obtain ⟨values, hvalues⟩ : ∃ values, c.rest = values := ⟨_, rfl⟩
  induction values generalizing c with
  | nil =>
      rw [skipWhitespace_eq, check_eq, hvalues]
      simp [view, ValueList.skipWhitespace, ValueList.skipFrom, hvalues]
  | cons v vs ih =>
      obtain ⟨-, hnext⟩ := view_next_of_cons hvalues
      have hview : c.view = ⟨v :: vs, c.last⟩ := congrArg (ValueList.mk · c.last) hvalues
      rw [skipWhitespace_eq, check_eq, hvalues, hview, ValueList.skipWhitespace, ValueList.skipFrom]
      change (if v.isWhitespace then c.next.2.skipWhitespace else c).view = _
      cases v.isWhitespace with
      | false => exact hview
      | true => exact (ih c.next.2 (congrArg ValueList.values hnext)).trans (congrArg _ hnext)

end Cursor

/-! ## Operations -/

/-- What can be done to a cursor. -/
inductive Operation where
  | peek (n : Nat)
  | next
  | consume (type : TokenType) (what : String)
  | consumeDelim (text what : String)
  | consumeShape (wanted : Value.Shape)
  | skipWhitespace
  | splice (vs : List Value)
  | spliceExpansion (mixin : String) (vs : List Value)

namespace Operation

/-- The answer of a scan with the cursor that it leaves. -/
def outcome (toValue : α → Value) : EStateM.Result Diagnostic Cursor α → Answer × Cursor
  | .ok a c => (.ok (some (toValue a)), c)
  | .error d c => (.error d, c)

/-- The operation on a cursor. -/
def run : Operation → Cursor → Answer × Cursor
  | .peek n, c => (.ok (c.peek n), c)
  | .next, c => (.ok c.next.1, c.next.2)
  | .consume type what, c => outcome .token (Scan.consume type what c)
  | .consumeDelim text what, c => outcome .token (Scan.consumeDelim text what c)
  | .consumeShape wanted, c => outcome id (Scan.consumeShape wanted c)
  | .skipWhitespace, c => (.ok none, c.skipWhitespace)
  | .splice vs, c => (.ok none, c.splice vs)
  | .spliceExpansion mixin vs, c => (.ok none, c.spliceExpansion mixin vs)

/-- The operation on a list. -/
def onList : Operation → ValueList → Answer × ValueList
  | .peek n, l => (.ok l.values[n]?, l)
  | .next, l => l.next
  | .consume type what, l => l.expect (·.hasType type) (.expected what)
  | .consumeDelim text what, l => l.expect (·.isDelim text) (.expected what)
  | .consumeShape wanted, l => l.expect (·.shape == wanted) (.shape wanted)
  | .skipWhitespace, l => (.ok none, l.skipWhitespace)
  | .splice vs, l => (.ok none, { l with values := vs ++ l.values })
  | .spliceExpansion _ vs, l => (.ok none, { l with values := vs ++ l.values })

/-- Operations one after the other, with their answers. -/
def perform {σ : Type} (run : Operation → σ → Answer × σ) : List Operation → σ → List Answer × σ
  | [], s => ([], s)
  | op :: ops, s =>
    let (answer, s) := run op s
    let (answers, s) := perform run ops s
    (answer :: answers, s)

variable {c : Cursor}

/-- The front value is read if it is wanted, and else the cursor stays. -/
theorem view_expect {found : Answer × Cursor} {wanted : Value → Bool} {cause : String → Cause}
    (hread : ∀ v, c.peek 0 = some v → wanted v = true → found = (.ok (some v), c.next.2))
    (hfault : (∀ v, c.peek 0 = some v → wanted v = false) →
      found = (.error (c.faultAt 0 (cause (describeOption (c.peek 0)))), c)) :
    (found.1, found.2.view) = c.view.expect wanted cause := by
  rw [Cursor.faultAt] at hfault
  rw [Cursor.peek_eq_getElem?] at hread hfault
  cases hrest : c.rest with
  | nil =>
      rw [hrest] at hfault
      rw [hfault nofun]
      simp [Cursor.view, ValueList.expect, hrest]
  | cons v vs =>
      rw [hrest] at hread hfault
      obtain ⟨-, hnext⟩ := Cursor.view_next_of_cons hrest
      cases hwanted : wanted v with
      | true =>
          rw [hread v rfl hwanted]
          simp [Cursor.view, ValueList.expect, hrest, hwanted, ← hnext]
      | false =>
          rw [hfault (by rintro _ ⟨⟩; exact hwanted)]
          simp [Cursor.view, ValueList.expect, hrest, hwanted]

/-- The front value is read if it is a token with a property, and else the cursor stays. -/
theorem view_expect_token (p : Token → Prop) [DecidablePred p] {wanted : Value → Bool}
    {cause : String → Cause} (htoken : ∀ t, wanted (.token t) = decide (p t))
    (hother : ∀ v, (∀ t, v ≠ .token t) → wanted v = false) :
    let fault := EStateM.Result.error (c.faultAt 0 (cause (describeOption (c.peek 0)))) c
    let found : EStateM.Result Diagnostic Cursor Token :=
      match c.peekToken 0 with
      | some t => if p t then .ok t c.next.2 else fault
      | none => fault
    ((outcome .token found).1, (outcome .token found).2.view) = c.view.expect wanted cause := by
  refine view_expect (fun v hv hwanted => ?_) fun hfault => ?_
  · cases v with
    | token t =>
        have hp : p t := of_decide_eq_true ((htoken t).symm.trans hwanted)
        simp [Cursor.peekToken, hv, hp, outcome]
    | _ =>
        rw [hother _ (by rintro _ ⟨⟩)] at hwanted
        cases hwanted
  · cases hfront : c.peek 0 with
    | none => simp [Cursor.peekToken, hfront, outcome]
    | some v =>
        have hwanted := hfault v hfront
        cases v with
        | token t =>
            have hp : ¬ p t := of_decide_eq_false ((htoken t).symm.trans hwanted)
            simp [Cursor.peekToken, hfront, hp, outcome]
        | _ => simp [Cursor.peekToken, hfront, outcome]

/-- One operation on a cursor is the same operation on what it shows. -/
theorem view_run (op : Operation) (c : Cursor) :
    ((op.run c).1, (op.run c).2.view) = op.onList c.view := by
  cases op with
  | peek n =>
      rw [run, onList, Cursor.peek_eq_getElem?]
      rfl
  | next => exact Cursor.view_next c
  | consume type what =>
      refine view_expect_token (fun t => t.type = type) (fun _ => rfl) fun v hv => ?_
      cases v with
      | token t => exact absurd rfl (hv t)
      | _ => rfl
  | consumeDelim text what =>
      refine view_expect_token (fun t => t.isDelim text = true) (fun t => ?_) fun v hv => ?_
      · simp [Value.isDelim]
      · cases v with
        | token t => exact absurd rfl (hv t)
        | _ => rfl
  | consumeShape wanted =>
      refine view_expect (fun v hv hwanted => ?_) fun hfault => ?_
      · have hshape : v.shape = wanted := by simpa using hwanted
        simp [run, Scan.consumeShape, hv, hshape, outcome]
      · cases hfront : c.peek 0 with
        | none => simp [run, Scan.consumeShape, hfront, outcome]
        | some v =>
            have hshape : v.shape ≠ wanted := by simpa using hfault v hfront
            simp [run, Scan.consumeShape, hfront, hshape, outcome]
  | skipWhitespace =>
      rw [run, onList, ← Cursor.view_skipWhitespace]
  | splice vs =>
      rw [run, onList, Cursor.view, Cursor.rest_splice]
      rfl
  | spliceExpansion mixin vs =>
      rw [run, onList, Cursor.view, Cursor.rest_spliceExpansion]
      rfl

/-! ## What an operation can do to a cursor -/

/-- The cursors that an operation can leave. -/
inductive Step (c : Cursor) : Cursor → Prop
  | stay : Step c c
  | next : Step c c.next.2
  | skipWhitespace : Step c c.skipWhitespace
  | splice (vs : List Value) : Step c (c.splice vs)
  | spliceExpansion (mixin : String) (vs : List Value) : Step c (c.spliceExpansion mixin vs)

/-- An operation ends with a fault and leaves the cursor alone, or it answers and takes a step. -/
theorem run_cases (op : Operation) (c : Cursor) :
    (∃ d, op.run c = (.error d, c)) ∨ (∃ v, (op.run c).1 = .ok v) ∧ Step c (op.run c).2 := by
  cases op with
  | peek n => exact .inr ⟨⟨_, rfl⟩, .stay⟩
  | next => exact .inr ⟨⟨_, rfl⟩, .next⟩
  | consume type what =>
      rw [run, Scan.consume]
      split
      · split
        · exact .inr ⟨⟨_, rfl⟩, .next⟩
        · exact .inl ⟨_, rfl⟩
      · exact .inl ⟨_, rfl⟩
  | consumeDelim text what =>
      rw [run, Scan.consumeDelim]
      split
      · split
        · exact .inr ⟨⟨_, rfl⟩, .next⟩
        · exact .inl ⟨_, rfl⟩
      · exact .inl ⟨_, rfl⟩
  | consumeShape wanted =>
      rw [run, Scan.consumeShape]
      split
      · split
        · exact .inr ⟨⟨_, rfl⟩, .next⟩
        · exact .inl ⟨_, rfl⟩
      · exact .inl ⟨_, rfl⟩
  | skipWhitespace => exact .inr ⟨⟨_, rfl⟩, .skipWhitespace⟩
  | splice vs => exact .inr ⟨⟨_, rfl⟩, .splice vs⟩
  | spliceExpansion mixin vs => exact .inr ⟨⟨_, rfl⟩, .spliceExpansion mixin vs⟩

/-- An operation that ends with a fault leaves the cursor alone. -/
theorem run_eq_of_fault {op : Operation} {d : Diagnostic} (h : (op.run c).1 = .error d) :
    (op.run c).2 = c := by
  rcases run_cases op c with ⟨d', hfault⟩ | ⟨⟨v, hok⟩, -⟩
  · rw [hfault]
  · rw [hok] at h
    cases h

/-- The names of the markers that are left are those of the mixins being expanded. -/
def NamesMarkers (c : Cursor) : Prop :=
  c.items.filterMap Item.marker? = c.expansions

/-- A step keeps the names of the markers in step with the mixins being expanded. -/
theorem Step.names {d : Cursor} (h : Step c d) (hc : NamesMarkers c) :
    NamesMarkers d := by
  have hstacked : Cursor.Stacked (c.depth + 1) c := ⟨hc, Nat.le_succ _⟩
  cases h with
  | stay => exact hc
  | next => exact hstacked.next.names
  | skipWhitespace => exact hstacked.skipWhitespace.names
  | splice vs => exact (hstacked.splice vs).names
  | spliceExpansion mixin vs => exact (hstacked.spliceExpansion (Nat.lt_succ_self _) mixin vs).names

theorem names_run (op : Operation) (hc : NamesMarkers c) :
    NamesMarkers (op.run c).2 := by
  rcases run_cases op c with ⟨d, hfault⟩ | ⟨-, hstep⟩
  · rw [hfault]
    exact hc
  · exact hstep.names hc

/-! ## Sequences of operations -/

/-- Any sequence of operations on a cursor is the same sequence on what it shows. -/
theorem perform_view (ops : List Operation) (c : Cursor) :
    ((perform run ops c).1, (perform run ops c).2.view) = perform onList ops c.view := by
  induction ops generalizing c with
  | nil => rfl
  | cons op ops ih =>
      have hrest := ih (op.run c).2
      simp only [perform, ← view_run, ← hrest]

theorem names_perform (ops : List Operation) (hc : NamesMarkers c) :
    NamesMarkers (perform run ops c).2 := by
  induction ops generalizing c with
  | nil => exact hc
  | cons op ops ih => exact ih (names_run op hc)

/-- What a cursor is made from. -/
inductive Origin where
  | values (vs : List Value) (depth : Nat)
  | tokens (ts : List Token)

namespace Origin

/-- The cursor that is made. -/
def cursor : Origin → Cursor
  | .values vs depth => .ofValues vs depth
  | .tokens ts => .ofTokens ts

/-- The values that there are to read. -/
def contents : Origin → List Value
  | .values vs _ => vs
  | .tokens ts => valuesOf ts

theorem rest_ofValues (vs : List Value) (depth : Nat) :
    (Cursor.ofValues vs depth).rest = vs := by
  simp [Cursor.ofValues, Cursor.rest, List.filterMap_map, Function.comp_def, Item.value?]

theorem rest_cursor (o : Origin) :
    o.cursor.rest = o.contents := by
  cases o with
  | values vs depth => exact rest_ofValues vs depth
  | tokens ts =>
      rw [cursor, Cursor.ofTokens]
      dsimp only
      split <;> exact rest_ofValues (valuesOf ts) 0

theorem names_cursor (o : Origin) :
    NamesMarkers o.cursor := by
  cases o with
  | values vs depth => exact (Cursor.stacked_ofValues vs (Nat.le_refl depth)).names
  | tokens ts =>
      have hstacked : Cursor.Stacked 0 (.ofTokens ts) := Cursor.stacked_ofTokens ts
      exact hstacked.names

end Origin

/-- The operations on the cursor are those on the list of the values that are left to read. -/
structure ReadsList (c : Cursor) : Prop where
  peek : ∀ n, c.peek n = c.rest[n]?
  atEnd : c.atEnd = true ↔ c.rest = []
  next : c.next.1 = c.rest.head? ∧ c.next.2.rest = c.rest.tail
  next_of_end : c.rest = [] → c.next.1 = none ∧ c.next.2.view = c.view
  splice : ∀ vs, (c.splice vs).rest = vs ++ c.rest
  spliceExpansion : ∀ mixin vs, (c.spliceExpansion mixin vs).rest = vs ++ c.rest
  skipWhitespace : ∃ blanks, c.rest = blanks ++ c.skipWhitespace.rest ∧
    (∀ v ∈ blanks, v.isWhitespace = true) ∧ ∀ v ∈ c.skipWhitespace.rest.head?, v.isWhitespace = false
  fault : ∀ (op : Operation) (d : Diagnostic), (op.run c).1 = .error d →
    (op.run c).2.rest = c.rest ∧ (op.run c).2.depth = c.depth ∧ (op.run c).2.last = c.last

theorem readsList (c : Cursor) :
    ReadsList c where
  peek := Cursor.peek_eq_getElem? c
  atEnd := by
    rw [Cursor.atEnd, Cursor.peek_eq_getElem?, Option.isNone_iff_eq_none, List.getElem?_eq_none_iff,
      Nat.le_zero, List.length_eq_zero_iff]
  next := ⟨Cursor.next_fst c, Cursor.rest_next c⟩
  next_of_end := Cursor.view_next_of_end
  splice := Cursor.rest_splice c
  spliceExpansion := Cursor.rest_spliceExpansion c
  skipWhitespace := by
    refine ⟨c.rest.takeWhile Value.isWhitespace, ?_, List.all_eq_true.mp List.all_takeWhile, ?_⟩
    · rw [Cursor.rest_skipWhitespace, List.takeWhile_append_dropWhile]
    · intro v hv
      rw [Cursor.rest_skipWhitespace] at hv
      have hstop := List.head?_dropWhile_not Value.isWhitespace c.rest
      rw [Option.mem_def.mp hv] at hstop
      simpa using hstop
  fault := by
    intro op d hfault
    rw [run_eq_of_fault hfault]
    exact ⟨rfl, rfl, rfl⟩

/-- After any operations on a cursor that was made from values or from tokens, the answers have been
those of a list, and what the cursor shows is what is left of that list; the next operation is one on
this list, a fault changes nothing, and the mixins being expanded are those whose markers are left. -/
theorem perform_refines (o : Origin) (ops : List Operation) :
    ((perform run ops o.cursor).1, (perform run ops o.cursor).2.view) =
        perform onList ops ⟨o.contents, o.cursor.last⟩ ∧
      ReadsList (perform run ops o.cursor).2 ∧
      NamesMarkers (perform run ops o.cursor).2 := by
  refine ⟨?_, readsList _, names_perform ops o.names_cursor⟩
  rw [perform_view, Cursor.view, o.rest_cursor]

end Operation
end Cascade
