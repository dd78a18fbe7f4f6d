import Cascade.Proofs.Outcomes
import Cascade.Sheet.Body

/-!
# Where the values of a selector come from

A selector tree holds component values in one place only, the arguments of its
pseudo-classes.  They are taken from the prelude that was read: either they stand
there, or they are the arguments of a call that stands there.

**Method.**  `Hereditary Q` says that `Q` holds of every token and passes from a
call to its arguments.  `Gives Q x P` says that `x`, read over values that all
satisfy `Q`, leaves such values and gives a result with `P`.

**Results.**
* `forall_mem_values_of_parse`: what is hereditary and holds of a prelude holds of
  the values of its selectors.
* `mem_of_splitImportant`: the value of a declaration is made of values that were
  read for it.
-/

namespace Cascade

/-! ## Values of a selector -/

/-- The values of a pseudo-class: its argument. -/
def PseudoClass.values (p : PseudoClass) : List Value :=
  p.argument.getD []

/-- The values of a condition: those of a pseudo-class. -/
def Subclass.values : Subclass → List Value
  | .pseudo p => p.values
  | _ => []

/-- The values of a pseudo-element and of the pseudo-classes behind it. -/
def PseudoElement.values (p : PseudoElement) : List Value :=
  p.element.values ++ p.classes.flatMap PseudoClass.values

/-- The values of a compound. -/
def Compound.values (c : Compound) : List Value :=
  c.subclasses.flatMap Subclass.values ++ c.pseudos.flatMap PseudoElement.values

/-- The values of a complex selector. -/
def ComplexSelector.values (s : ComplexSelector) : List Value :=
  s.flatMap fun part => part.compound.values

/-- The values of a selector list. -/
def SelectorList.values (l : SelectorList) : List Value :=
  l.flatMap ComplexSelector.values

/-- The property holds of tokens, and of the arguments of a call if it holds of the call. -/
structure Hereditary (Q : Value → Prop) : Prop where
  token : ∀ t, Q (.token t)
  call : ∀ {name args commas closer}, Q (.call name args commas closer) →
    ∀ arg ∈ args, ∀ v ∈ arg, Q v

theorem mem_flattenArguments {v : Value} :
    ∀ {args : List (List Value)} {commas : List Token}, v ∈ flattenArguments args commas →
      (∃ arg ∈ args, v ∈ arg) ∨ ∃ t ∈ commas, v = .token t
  | [], _, h => by simp [flattenArguments] at h
  | [arg], commas, h => by
      left
      cases commas <;> exact ⟨arg, by simp, by simpa [flattenArguments] using h⟩
  | arg :: next :: args, [], h => by
      rw [flattenArguments] at h
      · rcases List.mem_append.mp h with h | h
        · exact .inl ⟨arg, by simp, h⟩
        · rcases mem_flattenArguments h with ⟨other, ho, hv⟩ | ht
          · exact .inl ⟨other, List.mem_cons_of_mem _ ho, hv⟩
          · exact .inr ht
      · nofun
  | arg :: next :: args, comma :: commas, h => by
      rw [flattenArguments] at h
      · rcases List.mem_append.mp h with h | h
        · exact .inl ⟨arg, by simp, h⟩
        · rcases List.mem_cons.mp h with rfl | h
          · exact .inr ⟨comma, List.mem_cons_self, rfl⟩
          · rcases mem_flattenArguments h with ⟨other, ho, hv⟩ | ⟨t, ht, hv⟩
            · exact .inl ⟨other, List.mem_cons_of_mem _ ho, hv⟩
            · exact .inr ⟨t, List.mem_cons_of_mem _ ht, hv⟩
      · nofun

theorem Hereditary.flattenArguments {Q : Value → Prop} (hQ : Hereditary Q) {name : Token}
    {args : List (List Value)} {commas : List Token} {closer : Option Token}
    (h : Q (.call name args commas closer)) :
    ∀ v ∈ flattenArguments args commas, Q v := by
  intro v hv
  rcases mem_flattenArguments hv with ⟨arg, ha, hv⟩ | ⟨t, -, rfl⟩
  · exact hQ.call h arg ha v hv
  · exact hQ.token t

/-! ## Reading over values with a property -/

/-- All values left to read have the property. -/
def Cursor.All (Q : Value → Prop) (c : Cursor) : Prop :=
  ∀ v ∈ c.rest, Q v

namespace Cursor

variable {Q : Value → Prop}

theorem all_ofValues {vs : List Value} (n : Nat) :
    (ofValues vs n).All Q ↔ ∀ v ∈ vs, Q v := by
  simp [All, rest, ofValues, List.filterMap_map, Function.comp_def, Item.value?]

theorem All.next {c : Cursor} (h : c.All Q) :
    c.next.2.All Q := by
  intro v hv
  rw [rest_next] at hv
  exact h v (List.mem_of_mem_tail hv)

theorem All.peek {c : Cursor} {n : Nat} {v : Value} (h : c.All Q) (hv : c.peek n = some v) :
    Q v := by
  rw [peek_eq_getElem?] at hv
  exact h v (List.mem_of_getElem? hv)

theorem All.skipWhitespace {c : Cursor} (h : c.All Q) :
    c.skipWhitespace.All Q := by
  intro v hv
  rw [rest_skipWhitespace] at hv
  exact h v ((List.dropWhile_sublist _).subset hv)

end Cursor

namespace Scan

variable {α β : Type} {Q : Value → Prop}

/-- Read over values with `Q`, the computation leaves such values and gives a result with `P`. -/
def Gives (Q : Value → Prop) (x : Scan α) (P : α → Prop) : Prop :=
  ∀ c, c.All Q → ∀ a c', x c = .ok a c' → c'.All Q ∧ P a

theorem Gives.pure {a : α} {P : α → Prop} (h : P a) :
    Gives Q (Pure.pure a : Scan α) P := by
  intro c hc b c' hx
  cases hx
  exact ⟨hc, h⟩

theorem Gives.any (a : α) :
    Gives Q (Pure.pure a : Scan α) fun _ => True :=
  .pure trivial

theorem Gives.bind {x : Scan α} {f : α → Scan β} {P : α → Prop} {P' : β → Prop}
    (hx : Gives Q x P) (hf : ∀ a, P a → Gives Q (f a) P') :
    Gives Q (x >>= f) P' := by
  intro c hc b c' h
  change EStateM.bind x f c = _ at h
  unfold EStateM.bind at h
  cases hr : x c with
  | ok a d =>
      rw [hr] at h
      obtain ⟨hd, ha⟩ := hx c hc a d hr
      exact hf a ha d hd b c' h
  | error e d =>
      rw [hr] at h
      cases h

theorem gives_look (f : Cursor → α) :
    Gives Q (look f) fun _ => True := by
  intro c hc a c' hx
  cases hx
  exact ⟨hc, trivial⟩

theorem gives_peek (n : Nat) :
    Gives Q (look (·.peek n)) fun front => ∀ v, front = some v → Q v := by
  intro c hc a c' hx
  cases hx
  exact ⟨hc, fun v hv => hc.peek hv⟩

theorem gives_next :
    Gives Q next fun _ => True := by
  intro c hc a c' hx
  cases hx
  exact ⟨hc.next, trivial⟩

theorem gives_skipWhitespace :
    Gives Q skipWhitespace fun _ => True := by
  intro c hc a c' hx
  cases hx
  exact ⟨hc.skipWhitespace, trivial⟩

theorem gives_failAt (n : Nat) (cause : Cause) {P : α → Prop} :
    Gives Q (failAt n cause) P := by
  intro c hc a c' hx
  cases hx

theorem gives_throw (d : Diagnostic) {P : α → Prop} :
    Gives Q (throw d) P := by
  intro c hc a c' hx
  cases hx

theorem gives_consume (type : TokenType) (what : String) :
    Gives Q (consume type what) fun _ => True := by
  intro c hc a c' hx
  unfold consume at hx
  split at hx
  · split at hx
    · cases hx
      exact ⟨hc.next, trivial⟩
    · cases hx
  · cases hx

theorem gives_consumeDelim (text what : String) :
    Gives Q (consumeDelim text what) fun _ => True := by
  intro c hc a c' hx
  unfold consumeDelim at hx
  split at hx
  · split at hx
    · cases hx
      exact ⟨hc.next, trivial⟩
    · cases hx
  · cases hx

/-! ## Runs of values -/

/-- The run holds values that were read before or stand in front. -/
theorem gives_balancedFrom (anyValue : Bool) :
    ∀ (n : Nat) (due : List TokenType) (read : List Value), (∀ v ∈ read, Q v) →
      Gives Q (balancedFrom anyValue n due read) fun run => ∀ v ∈ run, Q v
  | 0, _, read, hread => .pure fun v hv => hread v (List.mem_reverse.mp hv)
  | n + 1, due, read, hread => by
      have hdone : ∀ v ∈ read.reverse, Q v := fun v hv => hread v (List.mem_reverse.mp hv)
      rw [balancedFrom]
      refine .bind (gives_peek 0) fun front hfront => ?_
      have hmore (v : Value) (hv : front = some v) : ∀ u ∈ v :: read, Q u := by
        intro u hu
        rcases List.mem_cons.mp hu with rfl | hu
        · exact hfront u hv
        · exact hread u hu
      split
      · exact .pure hdone
      · split
        · exact .bind gives_next fun _ _ => gives_balancedFrom anyValue n _ _ (hmore _ rfl)
        · split
          · split
            · exact .pure hdone
            · split
              · exact .bind gives_next fun _ _ => gives_balancedFrom anyValue n _ _ (hmore _ rfl)
              · exact gives_failAt _ _
          · split
            · exact .pure hdone
            · exact .bind gives_next fun _ _ => gives_balancedFrom anyValue n _ _ (hmore _ rfl)
      · exact .bind gives_next fun _ _ => gives_balancedFrom anyValue n _ _ (hmore _ rfl)

theorem gives_balanced (anyValue : Bool) :
    Gives Q (balanced anyValue) fun run => ∀ v ∈ run, Q v :=
  .bind (gives_look _) fun _ _ => gives_balancedFrom anyValue _ _ _ nofun

/-! ## Selectors -/

theorem gives_qualifier :
    Gives Q qualifier fun _ => True := by
  unfold qualifier
  refine .bind (gives_look _) fun front _ => .bind (gives_look _) fun second _ => ?_
  refine .bind (gives_look _) fun named _ => ?_
  split
  · exact .bind gives_next fun _ _ => .bind gives_next fun _ _ => .pure trivial
  · refine .bind (gives_look _) fun bare _ => ?_
    split
    · exact .bind gives_next fun _ _ => .pure trivial
    · exact .pure trivial

theorem gives_typeSelector :
    Gives Q typeSelector fun _ => True := by
  unfold typeSelector
  refine .bind gives_qualifier fun q _ => .bind (gives_look _) fun front _ => ?_
  split
  · split
    · exact .bind gives_next fun _ _ => .pure trivial
    · split
      · exact .bind gives_next fun _ _ => .pure trivial
      · split
        · exact gives_failAt _ _
        · exact .pure trivial
  · split
    · exact gives_failAt _ _
    · exact .pure trivial

theorem gives_matcher :
    Gives Q matcher fun _ => True := by
  unfold matcher
  refine .bind (gives_look _) fun front _ => ?_
  split
  · split
    · split
      · exact .bind gives_next fun _ _ => .bind (gives_consumeDelim _ _) fun _ _ => .pure trivial
      · split
        · exact .bind gives_next fun _ _ => .pure trivial
        · exact .pure trivial
    · exact .pure trivial
  · exact .pure trivial

theorem gives_attributeValue :
    Gives Q attributeValue fun _ => True := by
  unfold attributeValue
  refine .bind gives_skipWhitespace fun _ _ => .bind (gives_look _) fun front _ => ?_
  split
  · exact gives_failAt _ _
  · next v =>
      split
      · have hend (modifier : Option Token) :
            Gives Q (do skipWhitespace; return (v, modifier) : Scan (Token × Option Token))
              fun _ => True :=
          .bind gives_skipWhitespace fun _ _ => .pure trivial
        refine .bind gives_next fun _ _ => .bind gives_skipWhitespace fun _ _ => ?_
        refine .bind (gives_look _) fun second _ => ?_
        dsimp only
        split
        · exact .bind (.any _) fun _ _ => hend _
        · split
          · split
            · exact .bind gives_next fun _ _ => .bind (.any _) fun _ _ => hend _
            · exact .bind (gives_failAt _ _ (P := fun _ => True)) fun _ _ => hend _
          · exact .bind (.any _) fun _ _ => hend _
      · exact gives_failAt _ _

theorem gives_attributeSelector (opener : Token) :
    Gives Q (attributeSelector opener) fun _ => True := by
  unfold attributeSelector
  refine .bind gives_skipWhitespace fun _ _ => .bind gives_qualifier fun q _ => ?_
  refine .bind (gives_consume _ _) fun name _ => .bind gives_skipWhitespace fun _ _ => ?_
  refine .bind gives_matcher fun m _ => ?_
  have hend (value modifier : Option Token) :
      Gives Q (do
        let closer ← consume .closeBracket "Expected ']'"
        return ⟨opener, q, name, m, value, modifier, closer⟩ : Scan Attribute) fun _ => True :=
    .bind (gives_consume _ _) fun _ _ => .pure trivial
  dsimp only
  split
  · refine .bind gives_attributeValue fun found _ => ?_
    exact .bind (.any _) fun _ _ => hend _ _
  · exact .bind (.any _) fun _ _ => hend _ _

theorem gives_pseudoClass (hQ : Hereditary Q) :
    Gives Q pseudoClass fun p => ∀ v ∈ p.values, Q v := by
  unfold pseudoClass
  refine .bind (gives_consume _ _) fun colon _ => .bind (gives_peek 0) fun front hfront => ?_
  split
  · split
    · exact .bind gives_next fun _ _ => .pure (by simp [PseudoClass.values])
    · split
      · refine .bind gives_next fun _ _ => .bind (gives_balanced true) fun run hrun => ?_
        exact .bind (gives_consume _ _) fun _ _ => .pure (by simpa [PseudoClass.values] using hrun)
      · exact gives_failAt _ _
  · split
    · refine .bind gives_next fun _ _ => .pure ?_
      simpa [PseudoClass.values] using hQ.flattenArguments (hfront _ rfl)
    · exact gives_throw _
  · exact gives_failAt _ _

/-- A scan of other values leaves the cursor as it is. -/
theorem gives_inside (vs : List Value) (x : Scan α) :
    Gives Q (inside vs x) fun _ => True := by
  intro c hc a c' hx
  unfold inside at hx
  split at hx
  · cases hx
    exact ⟨hc, trivial⟩
  · cases hx

theorem gives_subclass (hQ : Hereditary Q) :
    Gives Q subclass fun found => ∀ s, found = some s → ∀ v ∈ s.values, Q v := by
  have hplain (s : Subclass) (h : s.values = []) :
      Gives Q (Pure.pure (some s) : Scan (Option Subclass))
        fun found => ∀ s, found = some s → ∀ v ∈ s.values, Q v := by
    refine .pure ?_
    rintro _ ⟨rfl⟩ v hv
    simp [h] at hv
  have hnone : Gives Q (Pure.pure none : Scan (Option Subclass))
      fun found => ∀ s, found = some s → ∀ v ∈ s.values, Q v :=
    .pure fun s hs => by cases hs
  unfold subclass
  refine .bind (gives_peek 0) fun front hfront => ?_
  split
  · split
    · split
      · exact .bind gives_next fun _ _ => hplain _ rfl
      · exact gives_failAt _ _
    · split
      · refine .bind gives_next fun _ _ => ?_
        exact .bind (gives_consume _ _) fun _ _ => hplain _ rfl
      · split
        · exact .bind gives_next fun _ _ => hplain _ rfl
        · split
          · refine .bind gives_next fun _ _ => ?_
            exact .bind (gives_attributeSelector _) fun _ _ => hplain _ rfl
          · refine .bind (gives_look _) fun double _ => ?_
            split
            · refine .bind (gives_pseudoClass hQ) fun p hp => .pure ?_
              rintro _ ⟨rfl⟩
              exact hp
            · exact hnone
  · split
    · split
      · exact gives_throw _
      · refine .bind gives_next fun _ _ => ?_
        exact .bind (gives_inside _ _) fun _ _ => hplain _ rfl
    · exact hnone
  · exact hnone

theorem gives_subclasses (hQ : Hereditary Q) :
    ∀ n : Nat, Gives Q (subclasses n) fun found => ∀ v ∈ found.flatMap Subclass.values, Q v
  | 0 => .pure (by simp)
  | n + 1 => by
      rw [subclasses]
      refine .bind (gives_subclass hQ) fun found hfound => ?_
      split
      · exact .pure (by simp)
      · refine .bind (gives_subclasses hQ n) fun rest hrest => .pure ?_
        rw [List.flatMap_cons]
        exact List.forall_mem_append.mpr ⟨hfound _ rfl, hrest⟩

theorem gives_pseudoClasses (hQ : Hereditary Q) :
    ∀ n : Nat, Gives Q (pseudoClasses n) fun found => ∀ v ∈ found.flatMap PseudoClass.values, Q v
  | 0 => .pure (by simp)
  | n + 1 => by
      rw [pseudoClasses]
      refine .bind (gives_look _) fun more _ => ?_
      split
      · refine .bind (gives_pseudoClass hQ) fun p hp => ?_
        refine .bind (gives_pseudoClasses hQ n) fun rest hrest => .pure ?_
        rw [List.flatMap_cons]
        exact List.forall_mem_append.mpr ⟨hp, hrest⟩
      · exact .pure (by simp)

theorem gives_pseudoElements (hQ : Hereditary Q) :
    ∀ n : Nat, Gives Q (pseudoElements n)
      fun found => ∀ v ∈ found.flatMap PseudoElement.values, Q v
  | 0 => .pure (by simp)
  | n + 1 => by
      rw [pseudoElements]
      refine .bind (gives_look _) fun more _ => ?_
      split
      · refine .bind (gives_consume _ _) fun colon _ => ?_
        refine .bind (gives_pseudoClass hQ) fun element helement => ?_
        refine .bind (gives_look _) fun length _ => ?_
        refine .bind (gives_pseudoClasses hQ _) fun classes hclasses => ?_
        refine .bind (gives_pseudoElements hQ n) fun rest hrest => .pure ?_
        rw [List.flatMap_cons]
        refine List.forall_mem_append.mpr ⟨?_, hrest⟩
        exact List.forall_mem_append.mpr ⟨helement, hclasses⟩
      · exact .pure (by simp)

theorem gives_compound (hQ : Hereditary Q) :
    Gives Q compound fun c => ∀ v ∈ c.values, Q v := by
  unfold compound
  refine .bind gives_typeSelector fun type _ => .bind (gives_look _) fun length _ => ?_
  refine .bind (gives_subclasses hQ _) fun conditions hconditions => ?_
  refine .bind (gives_look _) fun length _ => ?_
  refine .bind (gives_pseudoElements hQ _) fun pseudos hpseudos => ?_
  dsimp only
  split
  · exact .bind (gives_look _) fun _ _ => gives_failAt _ _
  · exact .pure (List.forall_mem_append.mpr ⟨hconditions, hpseudos⟩)

theorem gives_combinator (afterBlank : Bool) :
    Gives Q (combinator afterBlank) fun _ => True := by
  have hsign (t : Token) (kind : Combinator) :
      Gives Q (combinator.sign t kind) fun _ => True :=
    .bind gives_next fun _ _ => .pure trivial
  unfold combinator
  refine .bind (gives_look _) fun front _ => ?_
  split
  · split
    · split
      · exact hsign _ _
      · exact hsign _ _
      · exact hsign _ _
      · refine .bind (gives_look _) fun names _ => ?_
        split
        · exact .pure trivial
        · refine .bind gives_next fun _ _ => ?_
          exact .bind (gives_consumeDelim _ _) fun _ _ => .pure trivial
      · exact .pure trivial
    · exact .pure trivial
  · exact .pure trivial

theorem gives_parts (hQ : Hereditary Q) :
    ∀ n : Nat, Gives Q (parts n) fun found => ∀ v ∈ ComplexSelector.values found, Q v
  | 0 => .pure (by simp [ComplexSelector.values])
  | n + 1 => by
      rw [parts]
      refine .bind (gives_look _) fun atEnd _ => ?_
      split
      · exact .pure (by simp [ComplexSelector.values])
      · refine .bind (gives_look _) fun blank _ => .bind gives_skipWhitespace fun _ _ => ?_
        refine .bind (gives_combinator _) fun found _ => ?_
        split
        · exact .bind (gives_look _) fun _ _ => gives_failAt _ _
        · refine .bind gives_skipWhitespace fun _ _ => .bind (gives_look _) fun atEnd _ => ?_
          split
          · exact gives_failAt _ _
          · refine .bind (gives_compound hQ) fun c hc => ?_
            refine .bind (gives_parts hQ n) fun rest hrest => .pure ?_
            exact List.forall_mem_append.mpr ⟨hc, hrest⟩

theorem gives_complexSelector (hQ : Hereditary Q) :
    Gives Q complexSelector fun s => ∀ v ∈ s.values, Q v := by
  unfold complexSelector
  refine .bind (gives_compound hQ) fun first hfirst => .bind (gives_look _) fun length _ => ?_
  refine .bind (gives_parts hQ _) fun others hothers => .pure ?_
  exact List.forall_mem_append.mpr ⟨hfirst, hothers⟩

end Scan

/-! ## Preludes and declarations -/

namespace Selector

theorem mem_values_splitFrom {v : Value} {s : Segment} :
    ∀ (vs : List Value) (depth : Nat) (current : List Value) (place : Position),
      s ∈ splitFrom vs depth current place → v ∈ s.values → v ∈ current ∨ v ∈ vs
  | [], depth, current, place, hs, hv => by
      rw [splitFrom, List.mem_singleton] at hs
      subst hs
      exact .inl (List.mem_reverse.mp hv)
  | u :: vs, depth, current, place, hs, hv => by
      rw [splitFrom] at hs
      split at hs
      · rcases List.mem_cons.mp hs with rfl | hs
        · exact .inl (List.mem_reverse.mp hv)
        · rcases mem_values_splitFrom vs _ _ _ hs hv with h | h
          · cases h
          · exact .inr (List.mem_cons_of_mem _ h)
      · rcases mem_values_splitFrom vs _ _ _ hs hv with h | h
        · rcases List.mem_cons.mp h with rfl | h
          · exact .inr List.mem_cons_self
          · exact .inl h
        · exact .inr (List.mem_cons_of_mem _ h)

theorem forall_mem_values_of_parseSegment {Q : Value → Prop} (hQ : Hereditary Q) {s : Segment}
    {tree : ComplexSelector} (hs : ∀ v ∈ s.values, Q v) (h : parseSegment s = .ok tree) :
    ∀ v ∈ tree.values, Q v := by
  unfold parseSegment at h
  split at h
  · cases h
  · split at h
    · next hscan =>
        cases h
        refine (Scan.gives_complexSelector hQ _ ?_ _ _ hscan).2
        exact (Cursor.all_ofValues 0).mpr fun v hv => hs v (mem_of_mem_trimWhitespace hv)
    · cases h

/-- What is hereditary and holds of a prelude holds of the values of its selectors. -/
theorem forall_mem_values_of_parse {Q : Value → Prop} (hQ : Hereditary Q) {prelude : List Value}
    {selectors : SelectorList} (hprelude : ∀ v ∈ prelude, Q v)
    (h : parse prelude = .ok selectors) :
    ∀ v ∈ selectors.values, Q v := by
  have hsegments : ∀ s ∈ split prelude, ∀ v ∈ s.values, Q v := by
    intro s hs v hv
    rcases mem_values_splitFrom prelude _ _ _ hs hv with hnil | hmem
    · cases hnil
    · exact hprelude v hmem
  intro v hv
  obtain ⟨tree, htree, hv⟩ := List.mem_flatMap.mp hv
  obtain ⟨s, hs, hread⟩ := Outcome.exists_of_mem_mapM h htree
  exact forall_mem_values_of_parseSegment hQ (hsegments s hs) hread v hv

end Selector

theorem mem_of_stripImportant {v : Value} {vs value : List Value}
    (h : stripImportant? vs = some value) (hv : v ∈ value) :
    v ∈ vs := by
  unfold stripImportant? at h
  split at h
  · cases h
  · next keyword before hback =>
      have hbefore : ∀ u ∈ before, u ∈ vs := by
        intro u hu
        have : u ∈ vs.reverse.dropWhile Value.isWhitespace := by
          rw [hback]
          exact List.mem_cons_of_mem _ hu
        exact List.mem_reverse.mp ((List.dropWhile_sublist _).subset this)
      split at h
      · split at h
        · cases h
        · next bang values hbang =>
            split at h
            · cases h
              have hmem : v ∈ before.dropWhile Value.isWhitespace := by
                rw [hbang]
                exact List.mem_cons_of_mem _ (List.mem_reverse.mp (mem_of_mem_trimWhitespace hv))
              exact hbefore v ((List.dropWhile_sublist _).subset hmem)
            · cases h
      · cases h

/-- The value of a declaration is made of values that were read for it. -/
theorem mem_of_splitImportant {v : Value} {vs value : List Value} {important : Bool}
    (h : splitImportant vs = .ok (value, important)) (hv : v ∈ value) :
    v ∈ vs := by
  unfold splitImportant at h
  split at h
  · cases h
  · next run c hrun =>
      split at h
      · cases h
        have hall : (Cursor.ofValues vs 0).All (· ∈ vs) := (Cursor.all_ofValues 0).mpr fun _ hu => hu
        exact (Scan.gives_balanced false _ hall _ _ hrun).2 v hv
      · split at h
        · next hstrip =>
            cases h
            exact mem_of_stripImportant hstrip hv
        · cases h
          exact hv

end Cascade
