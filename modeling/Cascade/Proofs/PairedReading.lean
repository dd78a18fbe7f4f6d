import Cascade.Proofs.Grouping
import Cascade.Proofs.Matching
import Cascade.Proofs.SelfReference

/-!
# Two readers before the same items

Two readers are before the same items, with items of their own behind these (`BothBefore`).
What they read of the same items they read alike.

**Method.**  The values of a declaration or of the prelude of an at-rule are read one by one
(`ReadSingly`), so that one value after the other leaves both readers before the same items.

**Results.**
* `matched_collect`: values up to an end that both readers find.
-/

namespace Cascade

/-! ## Values one by one -/

/-- The value is a block in braces, or a brace that opens one. -/
def Value.isBraced : Value → Bool
  | .block opener _ _ => opener.type == .openBrace
  | .token t => t.type == .openBrace
  | _ => false

/-- A declaration ends before the value. -/
def Value.endsDeclaration (v : Value) : Bool :=
  v.hasType .semicolon

/-- An at-rule ends before the value, or with it. -/
def Value.endsAtRule (v : Value) : Bool :=
  v.hasType .semicolon || v.isBraced

/-- The values are read one by one, and the statement that they are in goes on with each: brackets
are in groups, and a dollar sign is before a value that is no name.  A reference may stand for values
that are so too. -/
inductive ReadSingly (s : Scopes) (ends : Value → Bool) : List Value → Prop
  | nil : ReadSingly s ends []
  | token {t : Token} {vs : List Value} :
      t.type.closer? = none → ends (.token t) = false →
      (t.isDelim "$" = true → ∃ v, vs.head? = some v ∧ v.hasType .ident = false) →
      ReadSingly s ends vs → ReadSingly s ends (.token t :: vs)
  | group {g : Value} {vs : List Value} :
      g.IsGroup → ends g = false → ReadSingly s ends vs → ReadSingly s ends (g :: vs)
  | kept {dollar name : Token} {vs : List Value} :
      s.isParameter name.text = true ∨ s.findVariable? name.text = none →
      ReadSingly s ends vs → ReadSingly s ends (.reference dollar name :: vs)
  | used {dollar name : Token} {values vs : List Value} :
      s.isParameter name.text = false → s.findVariable? name.text = some values →
      ReadSingly s ends (values ++ vs) → ReadSingly s ends (.reference dollar name :: vs)

/-! ## Readers before the same items -/

namespace Read

variable {α β : Type} {scopes : Scopes} {us us' l : List Item} {r s : Reader} {v : Value}

/-- Both readers are before the same items, with others behind them: the first reader has `us` there and
the second one `us'`. -/
structure BothBefore (scopes : Scopes) (us us' l : List Item) (r s : Reader) : Prop where
  scopes : r.scopes = scopes
  items : r.cursor.items = l ++ us
  other : s = r.withItems (l ++ us')

theorem next_of_items {items : List Item} (hitems : r.cursor.items = .value v :: items) :
    next r = .ok (some v) (Behind r items v.start) := by
  simp [next, scan, Scan.next, Cursor.next, Cursor.dropMarkers, Behind, hitems]

theorem skipBlanks_values {blanks : List Value} (hblanks : ∀ v ∈ blanks, v.isWhitespace = true)
    (hv : v.isWhitespace = false) (names : List String) (last : Position) :
    ∃ last', ∀ items, Cursor.skipBlanks (blanks.map .value ++ .value v :: items) names last =
      (.value v :: items, names, last') := by
  induction blanks generalizing last with
  | nil => exact ⟨last, fun items => by simp [Cursor.skipBlanks, hv]⟩
  | cons b blanks ih =>
      obtain ⟨hb, hblanks⟩ := List.forall_mem_cons.mp hblanks
      obtain ⟨last', hskip⟩ := ih hblanks b.start
      refine ⟨last', fun items => ?_⟩
      rw [List.map_cons, List.cons_append, Cursor.skipBlanks, if_pos hb, hskip]

/-- Whitespace in front is read with the whitespace behind it. -/
theorem skipped_blank (hv : v.isWhitespace = true) (hitems : r.cursor.items = .value v :: l) :
    r.skipped = (Behind r l v.start).skipped := by
  simp [Reader.skipped, Behind, Cursor.skipWhitespace, hitems, Cursor.skipBlanks, hv]

theorem skipped_visible (hv : v.isWhitespace = false) (hitems : r.cursor.items = .value v :: l) :
    r.skipped = r := by
  have hfirst : (Item.first? r.cursor.items).any Value.isWhitespace = false := by
    simp [hitems, Item.first?, hv]
  simp [Reader.skipped, Cursor.skipWhitespace, Item.skipBlanks_of_first hfirst]

namespace BothBefore

theorem right (h : BothBefore scopes us us' l r s) :
    s.cursor.items = l ++ us' := by
  rw [h.other]
  rfl

theorem peek_left (h : BothBefore scopes us us' (.value v :: l) r s) :
    r.cursor.peek 0 = some v :=
  Cursor.peek_of_blank Item.blank_nil h.items

theorem peek_right (h : BothBefore scopes us us' (.value v :: l) r s) :
    s.cursor.peek 0 = some v :=
  Cursor.peek_of_blank Item.blank_nil h.right

theorem other_scopes (h : BothBefore scopes us us' l r s) :
    s.scopes = scopes := by
  rw [h.other]
  exact h.scopes

theorem behind (h : BothBefore scopes us us' (.value v :: l) r s) (p : Position) :
    BothBefore scopes us us' l (Behind r (l ++ us) p) (Behind s (l ++ us') p) where
  scopes := h.scopes
  items := rfl
  other := by rw [h.other]; rfl

theorem matched_next (h : BothBefore scopes us us' (.value v :: l) r s) :
    Matched (fun _ => BothBefore scopes us us' l) (next r) (next s) := by
  rw [next_of_items h.items, next_of_items h.right]
  exact .result (h.behind _)

theorem matched_consume {t : Token} {type : TokenType} (what : String)
    (h : BothBefore scopes us us' (.value (.token t) :: l) r s) (ht : t.type = type) :
    Matched (fun found r s => found = t ∧ BothBefore scopes us us' l r s)
      (scan (Scan.consume type what) r) (scan (Scan.consume type what) s) := by
  rw [consume_of_items what h.items ht, consume_of_items what h.right ht]
  exact .result ⟨rfl, h.behind _⟩

theorem skipped {blanks : List Value} (hblanks : ∀ v ∈ blanks, v.isWhitespace = true)
    (hv : v.isWhitespace = false)
    (h : BothBefore scopes us us' (blanks.map .value ++ .value v :: l) r s) :
    BothBefore scopes us us' (.value v :: l) r.skipped s.skipped := by
  obtain ⟨last, hskip⟩ := skipBlanks_values hblanks hv r.cursor.expansions r.cursor.last
  have hleft := hskip (l ++ us)
  have hright := hskip (l ++ us')
  refine ⟨h.scopes, ?_, ?_⟩
  · simp [Reader.skipped, Cursor.skipWhitespace, h.items, hleft]
  · rw [h.other]
    simp [Reader.skipped, Reader.withItems, Cursor.skipWhitespace, h.items, hleft, hright]

/-! ## Values -/

theorem matched_value_token {t : Token}
    (h : BothBefore scopes us us' (.value (.token t) :: l) r s) (hopens : t.type.closer? = none)
    (hdollar : t.isDelim "$" = true → ∃ v k, l = .value v :: k ∧ v.hasType .ident = false) (n : Nat) :
    Matched (fun _ => BothBefore scopes us us' l) (value n r) (value n s) := by
  cases n with
  | zero =>
      rw [value_zero]
      exact .stopped
  | succ n =>
      have hbehind (items : List Item) : t.isDelim "$" = true →
          ∀ v ∈ Item.first? (l ++ items), v.hasType .ident = false := by
        intro ht v hv
        obtain ⟨w, k, rfl, hident⟩ := hdollar ht
        cases hv
        exact hident
      rw [value_of_single hopens Item.blank_nil h.items (hbehind _),
        value_of_single hopens Item.blank_nil h.right (hbehind _)]
      exact h.matched_next

theorem matched_value_group (h : BothBefore scopes us us' (.value v :: l) r s) (hv : v.IsGroup)
    (n : Nat) :
    Matched (fun _ => BothBefore scopes us us' l) (value n r) (value n s) := by
  cases n with
  | zero =>
      rw [value_zero]
      exact .stopped
  | succ n =>
      have hpassed : BothBefore scopes us us' (.value v :: l) { r with passed := v :: r.passed }
          { s with passed := v :: s.passed } :=
        ⟨h.scopes, h.items, by rw [h.other]; rfl⟩
      rw [value]
      refine .peek ?_
      simp only [h.peek_left, h.peek_right]
      cases v with
      | block opener contents closer => exact hpassed.matched_next
      | call name args commas closer => exact hpassed.matched_next
      | token t => rcases hv with hshape | hshape <;> cases hshape
      | reference dollar name => rcases hv with hshape | hshape <;> cases hshape

theorem matched_resolve (h : BothBefore scopes us us' l r s) (ref : Reference)
    (hkept : scopes.isParameter ref.name.text = true ∨ scopes.findVariable? ref.name.text = none) :
    Matched (fun _ => BothBefore scopes us us' l) (resolve ref r) (resolve ref s) := by
  unfold resolve
  refine .look ?_
  rw [h.scopes, h.other_scopes]
  split
  · exact .result h
  · next hfree =>
      rw [hkept.resolve_left hfree]
      dsimp only
      split
      · exact .result h
      · exact .stopped

theorem matched_value_kept {dollar name : Token}
    (h : BothBefore scopes us us' (.value (.reference dollar name) :: l) r s)
    (hkept : scopes.isParameter name.text = true ∨ scopes.findVariable? name.text = none) (n : Nat) :
    Matched (fun _ => BothBefore scopes us us' l) (value n r) (value n s) := by
  cases n with
  | zero =>
      rw [value_zero]
      exact .stopped
  | succ n =>
      rw [value]
      refine .peek ?_
      simp only [h.peek_left, h.peek_right]
      refine h.matched_next.bind fun _ t u htu => ?_
      exact (htu.matched_resolve ⟨dollar, name⟩ hkept).bind fun use t u htu => .result htu

theorem matched_value_used {dollar name : Token} {values : List Value}
    (h : BothBefore scopes us us' (.value (.reference dollar name) :: l) r s)
    (hfree : scopes.isParameter name.text = false)
    (hbound : scopes.findVariable? name.text = some values) (n : Nat) :
    Matched (fun _ => BothBefore scopes us us' (values.map .value ++ l)) (value n r) (value n s) := by
  cases n with
  | zero =>
      rw [value_zero]
      exact .stopped
  | succ n =>
      have hresolve {r : Reader} (hscopes : r.scopes = scopes) :
          resolve ⟨dollar, name⟩ r =
            .ok (.substituted ⟨dollar, name⟩) { r with cursor := r.cursor.splice values } :=
        resolve_of_bound _ (hscopes ▸ hbound) (hscopes ▸ hfree)
      rw [value]
      refine .peek ?_
      simp only [h.peek_left, h.peek_right]
      refine h.matched_next.bind fun _ t u htu => ?_
      rw [bind_ok (hresolve htu.scopes), bind_ok (hresolve htu.other_scopes)]
      refine .result ⟨htu.scopes, ?_, ?_⟩
      · simp [Cursor.splice, htu.items]
      · rw [htu.other]
        simp [Cursor.splice, Reader.withItems]

end BothBefore

/-! ## Lists of values -/

/-- The list of values goes on before any value but its ends, and no reference is one of these. -/
structure GoesOn (ends : Value → Bool) (ending : List Value → Read (Option β)) : Prop where
  reference : ∀ dollar name : Token, ends (.reference dollar name) = false
  before : ∀ {read : List Value} {r : Reader} {v : Value} {items : List Item},
    r.cursor.items = .value v :: items → ends v = false → ending read r = .ok none r

theorem goesOn_declarationEnd :
    GoesOn Value.endsDeclaration declarationEnd where
  reference _ _ := rfl
  before := by
    intro read r v items hitems hv
    unfold declarationEnd
    rw [bind_ok (peek_run _ r), Cursor.peek_of_blank Item.blank_nil hitems]
    dsimp only
    rw [bind_ok (peek_run _ r), Cursor.atExpansionEnd, hitems]
    simp only [show v.hasType .semicolon = false from hv]
    rfl

theorem goesOn_atRuleEnd (name : Token) :
    GoesOn Value.endsAtRule (atRuleEnd name) where
  reference _ _ := rfl
  before := by
    intro read r v items hitems hv
    obtain ⟨hsemicolon, hbraced⟩ := Bool.or_eq_false_iff.mp hv
    unfold atRuleEnd
    rw [bind_ok (peek_run _ r), Cursor.peek_of_blank Item.blank_nil hitems]
    cases v with
    | token t =>
        have ht : t.type ≠ .semicolon := by simpa [Value.hasType] using hsemicolon
        have hopener : t.type ≠ .openBrace := by simpa [Value.isBraced] using hbraced
        simp only [ht, hopener, if_false]
        rfl
    | block opener contents closer =>
        have hopener : opener.type ≠ .openBrace := by simpa [Value.isBraced] using hbraced
        simp only [hopener, if_false]
        rfl
    | _ => rfl

section Lists

variable {R : β → Reader → Reader → Prop} {ends : Value → Bool} {ending : List Value → Read (Option β)}
  {k : List Item} {n : Nat} {read : List Value}

/-- The list goes on with the value in front. -/
theorem BothBefore.matched_collect (hgoesOn : GoesOn ends ending) (hv : ends v = false)
    (h : BothBefore scopes us us' (.value v :: l) r s)
    (hvalue : ∀ n, Matched (fun _ => BothBefore scopes us us' k) (value n r) (value n s))
    (hbehind : ∀ {t u : Reader}, BothBefore scopes us us' k t u → ∀ n read,
      Matched R (collect n ending read t) (collect n ending read u)) :
    Matched R (collect n ending read r) (collect n ending read s) := by
  cases n with
  | zero =>
      rw [collect_zero]
      exact .stopped
  | succ n =>
      rw [collect, bind_ok (hgoesOn.before h.items hv), bind_ok (hgoesOn.before h.right hv)]
      refine (hvalue n).bind fun found t u htu => ?_
      cases found with
      | some v => exact hbehind htu n _
      | none => exact hbehind htu n _

/-- Values that are read one by one are read alike, if what ends them is. -/
theorem matched_collect (hgoesOn : GoesOn ends ending)
    (hend : ∀ (read : List Value) {r s : Reader}, BothBefore scopes us us' l r s →
      ∃ b t u, ending read r = .ok (some b) t ∧ ending read s = .ok (some b) u ∧ R b t u)
    {vs : List Value} (hvs : ReadSingly scopes ends vs)
    (h : BothBefore scopes us us' (vs.map .value ++ l) r s) :
    Matched R (collect n ending read r) (collect n ending read s) := by
  induction hvs generalizing r s n read with
  | nil =>
      cases n with
      | zero =>
          rw [collect_zero]
          exact .stopped
      | succ n =>
          obtain ⟨b, t, u, hleft, hright, hR⟩ := hend read h
          rw [collect, bind_ok hleft, bind_ok hright]
          exact .result hR
  | @token t vs hopens hopen hdollar _ ih =>
      refine h.matched_collect hgoesOn hopen (h.matched_value_token hopens ?_) fun htu n read => ih htu
      intro ht
      obtain ⟨v, hv, hident⟩ := hdollar ht
      obtain ⟨ws, rfl⟩ := List.head?_eq_some_iff.mp hv
      exact ⟨v, _, rfl, hident⟩
  | group hgroup hopen _ ih =>
      exact h.matched_collect hgoesOn hopen (h.matched_value_group hgroup) fun htu n read => ih htu
  | kept hkept _ ih =>
      exact h.matched_collect hgoesOn (hgoesOn.reference _ _) (h.matched_value_kept hkept)
        fun htu n read => ih htu
  | used hfree hbound _ ih =>
      refine h.matched_collect hgoesOn (hgoesOn.reference _ _) (h.matched_value_used hfree hbound)
        fun htu n read => ih ?_
      rw [List.map_append, List.append_assoc]
      exact htu

end Lists

end Read
end Cascade
