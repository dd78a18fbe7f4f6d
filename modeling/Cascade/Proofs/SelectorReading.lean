import Cascade.Proofs.Grouping
import Cascade.Proofs.SelectorGrammar
import Mathlib.Data.List.TakeWhile

/-!
# Reading selectors exactly

The reader of selectors accepts what the grammar describes, and nothing else.

**Method.**  `Consumes c x W` says that `x`, if it gives a result at `c`, has taken
values off the front that write the result in the sense of `W`.  `Reads c x a rest`
says that `x` gives `a` at `c` and leaves `rest`.  The first one is shown for every
part of the reader as it stands; the second one needs to know what may stand
behind a part, which `EndsCompound` and the tests for the start of a part say.

**Results.**
* `consumes_compound`, `reads_compound`: compounds.
* `consumes_parts`, `reads_parts`: what follows the first one.
* `Selector.parse_eq_ok_iff`: a prelude is read to a selector list exactly when it
  writes this list.
* `Selector.parse_accepts`: the same for tokens, in terms of the language, with what
  the tree holds.
-/

namespace Cascade

theorem Cursor.rest_of_peek_eq {c : Cursor} {v : Value} (h : c.peek 0 = some v) :
    c.rest = v :: c.next.2.rest := by
  rw [Cursor.peek_eq_getElem?, ← List.head?_eq_getElem?] at h
  obtain ⟨vs, hvs⟩ := List.head?_eq_some_iff.mp h
  rw [Cursor.rest_next, hvs, List.tail_cons]

theorem Cursor.peek_of_rest {c : Cursor} {v : Value} {vs : List Value} (h : c.rest = v :: vs) :
    c.peek 0 = some v := by
  rw [Cursor.peek_eq_getElem?, h]
  rfl

theorem Cursor.next_of_rest {c : Cursor} {v : Value} {vs : List Value} (h : c.rest = v :: vs) :
    c.next.1 = some v ∧ c.next.2.rest = vs := by
  rw [Cursor.next_fst, Cursor.rest_next, h]
  exact ⟨rfl, rfl⟩

theorem Cursor.peekToken_eq_some {c : Cursor} {t : Token} (h : c.peekToken 0 = some t) :
    c.peek 0 = some (.token t) := by
  unfold Cursor.peekToken at h
  split at h
  · next hpeek =>
      cases h
      exact hpeek
  · cases h

theorem Cursor.peekToken_of_rest {c : Cursor} {t : Token} {vs : List Value}
    (h : c.rest = .token t :: vs) :
    c.peekToken 0 = some t := by
  rw [Cursor.peekToken, Cursor.peek_of_rest h]

@[simp] theorem Cursor.rest_ofValues (vs : List Value) (n : Nat) :
    (Cursor.ofValues vs n).rest = vs := by
  simp [Cursor.ofValues, Cursor.rest, List.filterMap_map, Function.comp_def, Item.value?]

/-- No more values are left than items. -/
theorem Cursor.length_rest_le (c : Cursor) :
    c.rest.length ≤ c.items.length :=
  List.length_filterMap_le _ _

namespace Scan

variable {α β : Type} {c d : Cursor} {x : Scan α} {f : α → Scan β}

theorem bind_ok {a : α} (h : x c = .ok a d) :
    (x >>= f) c = f a d := by
  change EStateM.bind x f c = f a d
  simp [EStateM.bind, h]

theorem bind_error {e : Diagnostic} (h : x c = .error e d) :
    (x >>= f) c = .error e d := by
  change EStateM.bind x f c = .error e d
  simp [EStateM.bind, h]

/-! ## What a result was read from -/

/-- A result at the cursor was read from values at the front that write it. -/
def Consumes (c : Cursor) (x : Scan α) (W : α → List Value → Prop) : Prop :=
  ∀ a d, x c = .ok a d → ∃ us, c.rest = us ++ d.rest ∧ W a us

namespace Consumes

variable {V : α → List Value → Prop} {W : β → List Value → Prop}

theorem pure {b : β} (h : W b []) :
    Consumes c (Pure.pure b) W := by
  rintro _ _ ⟨⟩
  exact ⟨[], rfl, h⟩

theorem failAt (n : Nat) (cause : Cause) :
    Consumes c (Scan.failAt n cause) W := by
  rintro _ _ ⟨⟩

theorem throw (e : Diagnostic) :
    Consumes c (throw e) W := by
  rintro _ _ ⟨⟩

theorem failAt_bind (n : Nat) (cause : Cause) :
    Consumes c (Scan.failAt n cause >>= f) W := by
  rintro _ _ ⟨⟩

theorem pure_bind {a : α} (h : Consumes c (f a) W) :
    Consumes c (Pure.pure a >>= f) W :=
  h

theorem look {g : Cursor → α} (h : Consumes c (f (g c)) W) :
    Consumes c (Scan.look g >>= f) W :=
  h

theorem bind (hx : Consumes c x V)
    (hf : ∀ a us d, c.rest = us ++ d.rest → V a us →
      Consumes d (f a) fun b vs => W b (us ++ vs)) :
    Consumes c (x >>= f) W := by
  intro b e h
  cases hrun : x c with
  | ok a d =>
      rw [bind_ok hrun] at h
      obtain ⟨us, hus, ha⟩ := hx a d hrun
      obtain ⟨vs, hvs, hb⟩ := hf a us d hus ha b e h
      exact ⟨us ++ vs, by rw [hus, hvs, List.append_assoc], hb⟩
  | error e' d =>
      rw [bind_error hrun] at h
      cases h

theorem next {g : Option Value → Scan β} {v : Value} (hfront : c.peek 0 = some v)
    (h : Consumes c.next.2 (g (some v)) fun b vs => W b (v :: vs)) :
    Consumes c (Scan.next >>= g) W := by
  intro b e hrun
  have hfirst : Scan.next c = .ok (some v) c.next.2 := by
    rw [← (Cursor.next_of_rest (Cursor.rest_of_peek_eq hfront)).1]
    rfl
  rw [bind_ok hfirst] at hrun
  obtain ⟨vs, hvs, hb⟩ := h b e hrun
  exact ⟨v :: vs, by rw [Cursor.rest_of_peek_eq hfront, hvs, List.cons_append], hb⟩

theorem skipWhitespace {g : Unit → Scan β}
    (h : ∀ d blanks, c.rest = blanks ++ d.rest → AllBlank blanks →
      (∀ v ∈ d.rest.head?, v.isWhitespace = false) →
      Consumes d (g ()) fun b vs => W b (blanks ++ vs)) :
    Consumes c (Scan.skipWhitespace >>= g) W := by
  intro b e hrun
  have hsplit : c.rest = c.rest.takeWhile Value.isWhitespace ++ c.skipWhitespace.rest := by
    rw [Cursor.rest_skipWhitespace, List.takeWhile_append_dropWhile]
  have hblank : AllBlank (c.rest.takeWhile Value.isWhitespace) :=
    fun _ hv => List.mem_takeWhile_imp hv
  have hfront : ∀ v ∈ c.skipWhitespace.rest.head?, v.isWhitespace = false := by
    intro v hv
    have hnot := List.head?_dropWhile_not Value.isWhitespace c.rest
    rw [← Cursor.rest_skipWhitespace, Option.mem_def.mp hv] at hnot
    simpa using hnot
  obtain ⟨vs, hvs, hb⟩ := h c.skipWhitespace _ hsplit hblank hfront b e hrun
  exact ⟨_, by rw [List.append_assoc, ← hvs]; exact hsplit, hb⟩

theorem consume {type : TokenType} {what : String} {g : Token → Scan β}
    (h : ∀ t, t.type = type → c.peek 0 = some (.token t) →
      Consumes c.next.2 (g t) fun b vs => W b (.token t :: vs)) :
    Consumes c (Scan.consume type what >>= g) W := by
  intro b e hrun
  cases hfront : c.peekToken 0 with
  | none =>
      rw [bind_error (by simp only [Scan.consume, hfront]; rfl)] at hrun
      cases hrun
  | some t =>
      by_cases ht : t.type = type
      · rw [bind_ok (by simp only [Scan.consume, hfront, ht, if_true]; rfl)] at hrun
        have hpeek := Cursor.peekToken_eq_some hfront
        obtain ⟨vs, hvs, hb⟩ := h t ht hpeek b e hrun
        exact ⟨_, by rw [Cursor.rest_of_peek_eq hpeek, hvs, List.cons_append], hb⟩
      · rw [bind_error (by simp only [Scan.consume, hfront, ht, if_false]; rfl)] at hrun
        cases hrun

theorem consumeDelim {text what : String} {g : Token → Scan β}
    (h : ∀ t, t.isDelim text = true → c.peek 0 = some (.token t) →
      Consumes c.next.2 (g t) fun b vs => W b (.token t :: vs)) :
    Consumes c (Scan.consumeDelim text what >>= g) W := by
  intro b e hrun
  cases hfront : c.peekToken 0 with
  | none =>
      rw [bind_error (by simp only [Scan.consumeDelim, hfront]; rfl)] at hrun
      cases hrun
  | some t =>
      by_cases ht : t.isDelim text = true
      · rw [bind_ok (by simp only [Scan.consumeDelim, hfront, ht, if_true]; rfl)] at hrun
        have hpeek := Cursor.peekToken_eq_some hfront
        obtain ⟨vs, hvs, hb⟩ := h t ht hpeek b e hrun
        exact ⟨_, by rw [Cursor.rest_of_peek_eq hpeek, hvs, List.cons_append], hb⟩
      · rw [bind_error (by simp only [Scan.consumeDelim, hfront, ht]; rfl)] at hrun
        cases hrun

theorem mono {W' : β → List Value → Prop} {y : Scan β} (hy : Consumes c y W)
    (h : ∀ b vs, W b vs → W' b vs) :
    Consumes c y W' := by
  intro b d hrun
  obtain ⟨vs, hvs, hb⟩ := hy b d hrun
  exact ⟨vs, hvs, h b vs hb⟩

end Consumes

/-! ## What is read to a result -/

/-- The scan gives the result at the cursor and leaves the rest. -/
def Reads (c : Cursor) (x : Scan α) (a : α) (rest : List Value) : Prop :=
  ∃ d, x c = .ok a d ∧ d.rest = rest

namespace Reads

variable {a : α} {b : β} {vs rest : List Value}

theorem pure (h : c.rest = rest) :
    Reads c (Pure.pure b) b rest :=
  ⟨c, rfl, h⟩

theorem pure_bind (h : Reads c (f a) b rest) :
    Reads c (Pure.pure a >>= f) b rest :=
  h

theorem look {g : Cursor → α} (h : Reads c (f (g c)) b rest) :
    Reads c (Scan.look g >>= f) b rest :=
  h

theorem bind (hx : Reads c x a vs) (hf : ∀ d, d.rest = vs → Reads d (f a) b rest) :
    Reads c (x >>= f) b rest := by
  obtain ⟨d, hrun, hd⟩ := hx
  obtain ⟨e, hrun', he⟩ := hf d hd
  exact ⟨e, (bind_ok hrun).trans hrun', he⟩

theorem next {g : Option Value → Scan β} {v : Value} (h : c.rest = v :: vs)
    (hg : ∀ d, d.rest = vs → Reads d (g (some v)) b rest) :
    Reads c (Scan.next >>= g) b rest := by
  obtain ⟨hfirst, hnext⟩ := Cursor.next_of_rest h
  exact bind ⟨c.next.2, by rw [← hfirst]; rfl, hnext⟩ hg

theorem skipWhitespace {g : Unit → Scan β} {blanks : List Value} (h : c.rest = blanks ++ vs)
    (hblank : AllBlank blanks) (hvs : ∀ v ∈ vs.head?, v.isWhitespace = false)
    (hg : ∀ d, d.rest = vs → Reads d (g ()) b rest) :
    Reads c (Scan.skipWhitespace >>= g) b rest := by
  refine hg c.skipWhitespace ?_
  rw [Cursor.rest_skipWhitespace, h, List.dropWhile_append_of_pos hblank]
  cases vs with
  | nil => rfl
  | cons v vs => exact List.dropWhile_cons_of_neg (by simp [hvs v rfl])

theorem skipWhitespace_none {g : Unit → Scan β} (h : c.rest = vs)
    (hvs : ∀ v ∈ vs.head?, v.isWhitespace = false)
    (hg : ∀ d, d.rest = vs → Reads d (g ()) b rest) :
    Reads c (Scan.skipWhitespace >>= g) b rest :=
  skipWhitespace (h.trans (List.nil_append vs).symm) .nil hvs hg

theorem consume {type : TokenType} {what : String} {g : Token → Scan β} {t : Token}
    (h : c.rest = .token t :: vs) (ht : t.type = type)
    (hg : ∀ d, d.rest = vs → Reads d (g t) b rest) :
    Reads c (Scan.consume type what >>= g) b rest := by
  refine bind ⟨c.next.2, ?_, (Cursor.next_of_rest h).2⟩ hg
  simp only [Scan.consume, Cursor.peekToken_of_rest h, ht, if_true]

theorem consumeDelim {text what : String} {g : Token → Scan β} {t : Token}
    (h : c.rest = .token t :: vs) (ht : t.isDelim text = true)
    (hg : ∀ d, d.rest = vs → Reads d (g t) b rest) :
    Reads c (Scan.consumeDelim text what >>= g) b rest := by
  refine bind ⟨c.next.2, ?_, (Cursor.next_of_rest h).2⟩ hg
  simp only [Scan.consumeDelim, Cursor.peekToken_of_rest h, ht, if_true]

end Reads

/-! ## Names -/

/-- A bar with a name behind it stands first. -/
def startsQualifier : List Value → Bool
  | v :: w :: _ => v.isDelim "|" && w.isName
  | _ => false

theorem isNameOrStar_eq (c : Cursor) (n : Nat) :
    isNameOrStar c n = c.rest[n]?.any Value.isName := by
  unfold isNameOrStar Cursor.check Cursor.checkDelim
  rw [Cursor.peek_eq_getElem?]
  cases c.rest[n]? <;> rfl

theorem isQualifier_eq (c : Cursor) (n : Nat) :
    isQualifier c n = startsQualifier (c.rest.drop n) := by
  unfold isQualifier
  rw [isNameOrStar_eq, Cursor.checkDelim, Cursor.peek_eq_getElem?]
  have hsecond : c.rest[n + 1]? = (c.rest.drop n)[1]? := by
    rw [List.getElem?_drop]
  have hfirst : c.rest[n]? = (c.rest.drop n)[0]? := by
    rw [List.getElem?_drop, Nat.add_zero]
  rw [hfirst, hsecond]
  rcases c.rest.drop n with _ | ⟨v, _ | ⟨w, vs⟩⟩
  · rfl
  · simp [startsQualifier]
  · rfl

theorem exists_token_of_isDelim {v : Value} {text : String} (h : v.isDelim text = true) :
    ∃ t, v = .token t ∧ t.isDelim text = true := by
  cases v with
  | token t => exact ⟨t, rfl, h⟩
  | _ => cases h

theorem exists_token_of_isName {v : Value} (h : v.isName = true) :
    ∃ t, v = .token t := by
  cases v with
  | token t => exact ⟨t, rfl⟩
  | _ => cases h

/-- A delimiter has one text. -/
theorem eq_of_isDelim {v : Value} {text text' : String} (h : v.isDelim text = true)
    (h' : v.isDelim text' = true) :
    text = text' := by
  obtain ⟨t, rfl, ht⟩ := exists_token_of_isDelim h
  have hfirst : t.type = .delim ∧ t.text = text := by simpa [Token.isDelim] using ht
  have hsecond : t.type = .delim ∧ t.text = text' := by
    simpa [Value.isDelim, Token.isDelim] using h'
  exact hfirst.2.symm.trans hsecond.2

theorem hasType_of_isDelim {v : Value} {text : String} (h : v.isDelim text = true) {type : TokenType}
    (hne : type ≠ .delim) :
    v.hasType type = false := by
  obtain ⟨t, rfl, ht⟩ := exists_token_of_isDelim h
  have htype : t.type = .delim ∧ t.text = text := by simpa [Token.isDelim] using ht
  simp [Value.hasType, htype.1, hne.symm]

theorem isName_of_isDelim {v : Value} {text : String} (h : v.isDelim text = true)
    (hne : text ≠ "*") :
    v.isName = false := by
  refine Bool.or_eq_false_iff.mpr ⟨hasType_of_isDelim h (by decide), ?_⟩
  cases hstar : v.isDelim "*" with
  | false => rfl
  | true => exact absurd (eq_of_isDelim h hstar) hne

theorem isWhitespace_of_isDelim {v : Value} {text : String} (h : v.isDelim text = true) :
    v.isWhitespace = false :=
  hasType_of_isDelim h (by decide)

theorem isWhitespace_of_isName {v : Value} (h : v.isName = true) :
    v.isWhitespace = false := by
  rcases Bool.or_eq_true_iff.mp h with hident | hstar
  · obtain ⟨t, rfl⟩ := exists_token_of_isName h
    have htype : t.type = .ident := beq_iff_eq.mp hident
    simp [Value.isWhitespace, Value.hasType, htype]
  · exact isWhitespace_of_isDelim hstar

/-- How a qualifier is read, by what stands first. -/
theorem qualifier_run (c : Cursor) :
    qualifier c =
      if c.rest[0]?.any Value.isName && startsQualifier (c.rest.drop 1) then
        .ok ((c.peekToken 1).map fun bar => ⟨c.peekToken 0, bar⟩) c.next.2.next.2
      else if startsQualifier c.rest then
        .ok ((c.peekToken 0).map fun bar => ⟨none, bar⟩) c.next.2
      else
        .ok none c := by
  have hfirst := isNameOrStar_eq c 0
  have hbehind := isQualifier_eq c 1
  have hfront := isQualifier_eq c 0
  rw [List.drop_zero] at hfront
  rw [← hfirst, ← hbehind, ← hfront]
  unfold qualifier
  change (if (isNameOrStar c 0 && isQualifier c 1) = true then _ else
    (look (isQualifier · 0) >>= fun bare => if bare = true then _ else _) : Scan _) c = _
  split
  · rfl
  · change (if isQualifier c 0 = true then _ else _ : Scan _) c = _
    split <;> rfl

theorem startsQualifier_cases {vs : List Value} (h : startsQualifier vs = true) :
    ∃ bar w ws, vs = .token bar :: w :: ws ∧ bar.isDelim "|" = true ∧ w.isName = true := by
  rcases vs with _ | ⟨v, _ | ⟨w, ws⟩⟩
  · cases h
  · cases h
  · obtain ⟨hbar, hname⟩ := Bool.and_eq_true_iff.mp h
    obtain ⟨bar, rfl, hbar⟩ := exists_token_of_isDelim hbar
    exact ⟨bar, w, ws, rfl, hbar, hname⟩

theorem startsQualifier_of_front {v : Value} {vs : List Value} (h : v.isDelim "|" = false) :
    startsQualifier (v :: vs) = false := by
  cases vs with
  | nil => rfl
  | cons w vs => simp [startsQualifier, h]

theorem startsQualifier_of_blank {blanks vs : List Value} (hblanks : AllBlank blanks)
    (hvs : startsQualifier vs = false) :
    startsQualifier (blanks ++ vs) = false := by
  cases blanks with
  | nil => exact hvs
  | cons v blanks =>
      refine startsQualifier_of_front ?_
      have hv := hblanks v List.mem_cons_self
      cases v with
      | token t =>
          have ht : t.type = .whitespace := beq_iff_eq.mp hv
          simp [Value.isDelim, Token.isDelim, ht]
      | _ => rfl

theorem consumes_qualifier :
    Consumes c qualifier fun q us => us = qualifierYield q ∧ ∀ p ∈ q, p.Proper := by
  intro q d h
  rw [qualifier_run] at h
  split at h
  · next hcond =>
      obtain ⟨hname, hbehind⟩ := Bool.and_eq_true_iff.mp hcond
      obtain ⟨bar, w, ws, hdrop, hbar, _⟩ := startsQualifier_cases hbehind
      cases hrest : c.rest with
      | nil => simp [hrest] at hname
      | cons v vs =>
          rw [hrest] at hname hdrop
          obtain ⟨name, rfl⟩ := exists_token_of_isName hname
          change vs = _ at hdrop
          subst hdrop
          have hsecond : c.peekToken 1 = some bar := by
            rw [Cursor.peekToken, Cursor.peek_eq_getElem?, hrest]
            rfl
          rw [hsecond, Cursor.peekToken_of_rest hrest] at h
          cases h
          refine ⟨[.token name, .token bar], ?_, rfl, ?_⟩
          · rw [Cursor.rest_next, Cursor.rest_next, hrest]
            rfl
          · rintro _ ⟨rfl⟩
            refine ⟨?_, hbar⟩
            rintro _ ⟨rfl⟩
            exact hname
  · split at h
    · next hfront =>
        obtain ⟨bar, w, ws, hrest, hbar, _⟩ := startsQualifier_cases hfront
        rw [Cursor.peekToken_of_rest hrest] at h
        cases h
        refine ⟨[.token bar], ?_, rfl, ?_⟩
        · rw [Cursor.rest_next, hrest]
          rfl
        · rintro _ ⟨rfl⟩
          exact ⟨by rintro _ ⟨⟩, hbar⟩
    · cases h
      exact ⟨[], rfl, rfl, by simp⟩

/-- A qualifier is read where a name stands behind it. -/
theorem reads_qualifier {q : Option Qualifier} {v : Value} {vs : List Value}
    (hq : ∀ p ∈ q, p.Proper) (hrest : c.rest = qualifierYield q ++ v :: vs) (hv : v.isName = true)
    (hvs : startsQualifier vs = false) :
    Reads c qualifier q (v :: vs) := by
  unfold Reads
  rw [qualifier_run]
  match q, hq with
  | none, _ =>
      have hfront : startsQualifier (v :: vs) = false := by
        obtain ⟨t, rfl⟩ := exists_token_of_isName hv
        rcases vs with _ | ⟨w, ws⟩
        · rfl
        · refine Bool.and_eq_false_iff.mpr (.inl ?_)
          cases hbar : (Value.token t).isDelim "|" with
          | false => rfl
          | true =>
              rw [isName_of_isDelim hbar (by decide)] at hv
              cases hv
      change c.rest = v :: vs at hrest
      refine ⟨c, ?_, hrest⟩
      simp [hrest, hvs, hfront]
  | some ⟨none, bar⟩, hq =>
      have hbar := (hq _ rfl).bar
      change c.rest = .token bar :: v :: vs at hrest
      have hname : (Value.token bar).isName = false :=
        isName_of_isDelim (v := .token bar) hbar (by decide)
      refine ⟨c.next.2, ?_, (Cursor.next_of_rest hrest).2⟩
      simp [hrest, hname, startsQualifier, Value.isDelim, hbar, hv, Cursor.peekToken_of_rest hrest]
  | some ⟨some name, bar⟩, hq =>
      have hbar := (hq _ rfl).bar
      have hname := (hq _ rfl).name name rfl
      change c.rest = .token name :: .token bar :: v :: vs at hrest
      have hsecond : c.peekToken 1 = some bar := by
        rw [Cursor.peekToken, Cursor.peek_eq_getElem?, hrest]
        rfl
      refine ⟨c.next.2.next.2, ?_, ?_⟩
      · simp [hrest, hname, startsQualifier, Value.isDelim, hbar, hv, hsecond,
          Cursor.peekToken_of_rest hrest]
      · rw [Cursor.rest_next, Cursor.rest_next, hrest]
        rfl

/-- No qualifier is read where none stands. -/
theorem reads_qualifier_none {vs : List Value} (hrest : c.rest = vs)
    (hfront : vs.head?.any Value.isName = false) (hbar : startsQualifier vs = false) :
    Reads c qualifier none vs := by
  refine ⟨c, ?_, hrest⟩
  rw [qualifier_run, hrest]
  rw [List.head?_eq_getElem?] at hfront
  simp [hfront, hbar]

/-! ## Type selectors -/

theorem consumes_typeSelector :
    Consumes c typeSelector fun o us =>
      us = (o.map TypeSelector.yield).getD [] ∧ ∀ t ∈ o, t.Proper := by
  unfold typeSelector
  refine .bind consumes_qualifier ?_
  rintro q _ d - ⟨rfl, hq⟩
  refine .look ?_
  cases hfront : d.peekToken 0 with
  | none =>
      cases q with
      | none => exact .pure ⟨rfl, by simp⟩
      | some q => exact .failAt _ _
  | some t =>
      have hpeek := Cursor.peekToken_eq_some hfront
      by_cases hident : t.type = .ident
      · simp only [hident, if_true]
        refine .next hpeek (.pure ⟨rfl, ?_⟩)
        rintro _ ⟨rfl⟩
        exact ⟨hq, hident⟩
      · by_cases hstar : t.isDelim "*" = true
        · simp only [hident, if_false, hstar, if_true]
          refine .next hpeek (.pure ⟨rfl, ?_⟩)
          rintro _ ⟨rfl⟩
          exact ⟨hq, hstar⟩
        · simp only [hident, if_false, hstar]
          cases q with
          | none => exact .pure ⟨rfl, by simp⟩
          | some q => exact .failAt _ _

/-- A type selector is read where no bar behind it makes it a namespace. -/
theorem reads_typeSelector {t : TypeSelector} {rest : List Value} (ht : t.Proper)
    (hrest : c.rest = t.yield ++ rest) (hbehind : startsQualifier rest = false) :
    Reads c typeSelector (some t) rest := by
  unfold typeSelector
  cases t with
  | named q ident =>
      obtain ⟨hq, hident⟩ := ht
      have hname : (Value.token ident).isName = true := by
        simp [Value.isName, Value.hasType, hident]
      rw [TypeSelector.yield, List.append_assoc] at hrest
      refine .bind (reads_qualifier hq hrest hname hbehind) ?_
      intro d hd
      refine .look ?_
      simp only [Cursor.peekToken_of_rest hd, hident, if_true]
      exact .next hd fun e he => .pure he
  | universal q star =>
      obtain ⟨hq, hstar⟩ := ht
      have hname : (Value.token star).isName = true := by
        simp [Value.isName, Value.isDelim, hstar]
      have hident : star.type ≠ .ident := by
        intro htype
        simp [Token.isDelim, htype] at hstar
      rw [TypeSelector.yield, List.append_assoc] at hrest
      refine .bind (reads_qualifier hq hrest hname hbehind) ?_
      intro d hd
      refine .look ?_
      simp only [Cursor.peekToken_of_rest hd, hident, hstar, if_true, if_false]
      exact .next hd fun e he => .pure he

/-- No type selector is read where neither a name nor a qualifier stands. -/
theorem reads_typeSelector_none {vs : List Value} (hrest : c.rest = vs)
    (hfront : vs.head?.any Value.isName = false) (hbar : startsQualifier vs = false) :
    Reads c typeSelector none vs := by
  unfold typeSelector
  refine .bind (reads_qualifier_none hrest hfront hbar) ?_
  intro d hd
  refine .look ?_
  cases hpeek : d.peekToken 0 with
  | none => exact .pure hd
  | some t =>
      have hhead : vs.head? = some (.token t) := by
        rw [← hd, Cursor.rest_of_peek_eq (Cursor.peekToken_eq_some hpeek)]
        rfl
      rw [hhead] at hfront
      obtain ⟨hident, hstar⟩ := Bool.or_eq_false_iff.mp hfront
      have htype : t.type ≠ .ident := beq_eq_false_iff_ne.mp hident
      have hdelim : t.isDelim "*" = false := hstar
      simp only [htype, hdelim, if_false, Option.isSome_none]
      exact .pure hd

/-! ## Attributes -/

/-- The tokens of a matcher that may be missing. -/
def matcherYield (m : Option Matcher) : List Value :=
  (m.map Matcher.yield).getD []

theorem consumes_matcher :
    Consumes c matcher fun m us => us = matcherYield m ∧ ∀ p ∈ m, p.Proper := by
  unfold matcher
  refine .look ?_
  cases hfront : c.peekToken 0 with
  | none => exact .pure ⟨rfl, by simp⟩
  | some t =>
      have hpeek := Cursor.peekToken_eq_some hfront
      by_cases hdelim : t.type = .delim
      · simp only [hdelim, if_true]
        split
        · next hsign =>
            refine .next hpeek (.consumeDelim ?_)
            intro equals hequals _
            refine .pure ⟨rfl, ?_⟩
            rintro _ ⟨rfl⟩
            refine ⟨?_, hequals⟩
            rintro _ ⟨rfl⟩
            exact ⟨hdelim, hsign⟩
        · split
          · next hequals =>
              refine .next hpeek (.pure ⟨rfl, ?_⟩)
              rintro _ ⟨rfl⟩
              exact ⟨by simp, by simp [Token.isDelim, hdelim, hequals]⟩
          · exact .pure ⟨rfl, by simp⟩
      · simp only [hdelim, if_false]
        exact .pure ⟨rfl, by simp⟩

theorem reads_matcher {m : Matcher} {rest : List Value} (hm : m.Proper)
    (hrest : c.rest = m.yield ++ rest) :
    Reads c matcher (some m) rest := by
  unfold matcher
  obtain ⟨sign, equals⟩ := m
  have hequals := hm.equals
  have hdelim : equals.type = .delim ∧ equals.text = "=" := by
    simpa [Token.isDelim] using hequals
  refine .look ?_
  cases sign with
  | none =>
      have hrest' : c.rest = .token equals :: rest := hrest
      simp only [Cursor.peekToken_of_rest hrest', hdelim.1, hdelim.2, if_true]
      exact .next hrest' fun d hd => .pure hd
  | some t =>
      have hrest' : c.rest = .token t :: .token equals :: rest := hrest
      obtain ⟨htype, hsign⟩ := hm.sign t rfl
      have hsign' : ["~", "|", "^", "$", "*"].contains t.text = true := hsign
      simp only [Cursor.peekToken_of_rest hrest', htype, hsign', if_true]
      exact .next hrest' fun d hd => .consumeDelim hd hequals fun e he => .pure he

theorem reads_matcher_none {t : Token} {vs : List Value} (hrest : c.rest = .token t :: vs)
    (ht : t.type ≠ .delim) :
    Reads c matcher none (.token t :: vs) := by
  unfold matcher
  refine .look ?_
  simp only [Cursor.peekToken_of_rest hrest, ht, if_false]
  exact .pure hrest

/-- The values write the value of an attribute with its modifier. -/
inductive ValueWritten : Token × Option Token → List Value → Prop
  | intro {value : Token} {modifier : Option Token} {blanks blanks' blanks'' : List Value} :
      AllBlank blanks → (value.type = .string ∨ value.type = .ident) → AllBlank blanks' →
      (∀ t ∈ modifier, t.type = .ident ∧ modifierWords.contains t.text = true) →
      AllBlank blanks'' →
      ValueWritten (value, modifier)
        (blanks ++ .token value :: (blanks' ++ (modifier.toList.map .token ++ blanks'')))

theorem consumes_attributeValue :
    Consumes c attributeValue ValueWritten := by
  unfold attributeValue
  refine .skipWhitespace ?_
  intro d blanks _ hblanks _
  refine .look ?_
  cases hfront : d.peekToken 0 with
  | none => exact .failAt _ _
  | some value =>
      have hpeek := Cursor.peekToken_eq_some hfront
      by_cases hvalue : value.type = .string ∨ value.type = .ident
      · simp only [hvalue, if_true]
        refine .next hpeek (.skipWhitespace ?_)
        intro e blanks' _ hblanks' _
        have hmissing : Consumes e (skipWhitespace >>= fun _ => pure (value, none)) fun b vs =>
            ValueWritten b (blanks ++ .token value :: (blanks' ++ vs)) := by
          refine .skipWhitespace fun _ blanks'' _ hblanks'' _ => .pure ?_
          rw [List.append_nil]
          exact .intro hblanks hvalue hblanks' (by simp) hblanks''
        refine .look ?_
        cases hsecond : e.peekToken 0 with
        | none => exact .pure_bind hmissing
        | some t =>
            by_cases hident : t.type = .ident
            · simp only [hident, if_true]
              split
              · next hword =>
                  refine .next (Cursor.peekToken_eq_some hsecond) (.pure_bind ?_)
                  refine .skipWhitespace fun _ blanks'' _ hblanks'' _ => .pure ?_
                  rw [List.append_nil]
                  have hmodifier : ∀ u ∈ some t,
                      u.type = .ident ∧ modifierWords.contains u.text = true := by
                    rintro _ ⟨rfl⟩
                    exact ⟨hident, hword⟩
                  exact .intro hblanks hvalue hblanks' hmodifier hblanks''
              · exact .failAt_bind _ _
            · simp only [hident, if_false]
              exact .pure_bind hmissing
      · simp only [hvalue, if_false]
        exact .failAt _ _

/-- A value of an attribute is read up to the bracket that closes it. -/
theorem reads_attributeValue {value : Token × Option Token} {us vs : List Value} {closer : Token}
    (hvalue : ValueWritten value us) (hrest : c.rest = us ++ .token closer :: vs)
    (hcloser : closer.type = .closeBracket) :
    Reads c attributeValue value (.token closer :: vs) := by
  unfold attributeValue
  obtain ⟨hblanks, htype, hblanks', hword, hblanks''⟩ := hvalue
  rename_i value modifier blanks blanks' blanks''
  simp only [List.append_assoc, List.cons_append] at hrest
  have hend : ∀ v ∈ (Value.token closer :: vs).head?, v.isWhitespace = false := by
    rintro _ ⟨rfl⟩
    simp [Value.isWhitespace, Value.hasType, hcloser]
  refine .skipWhitespace hrest hblanks ?_ fun d hd => .look ?_
  · rintro _ ⟨rfl⟩
    rcases htype with h | h <;> simp [Value.isWhitespace, Value.hasType, h]
  simp only [Cursor.peekToken_of_rest hd, htype, if_true]
  refine .next hd fun e he => ?_
  cases modifier with
  | none =>
      -- Without a modifier the first skip takes the blanks of both places.
      rw [Option.toList_none, List.map_nil, List.nil_append, ← List.append_assoc] at he
      refine .skipWhitespace he (hblanks'.append hblanks'') hend fun e he => .look ?_
      have hident : closer.type ≠ .ident := by simp [hcloser]
      simp only [Cursor.peekToken_of_rest he, hident, if_false]
      refine .pure_bind (.skipWhitespace_none he hend fun _ h => .pure h)
  | some t =>
      obtain ⟨hident, htext⟩ := hword t rfl
      have htext' : ["i", "I", "s", "S"].contains t.text = true := htext
      refine .skipWhitespace he hblanks' ?_ fun e he => .look ?_
      · rintro _ ⟨rfl⟩
        simp [Value.isWhitespace, Value.hasType, hident]
      simp only [Option.toList_some, List.map_cons, List.map_nil, List.cons_append,
        List.nil_append] at he
      simp only [Cursor.peekToken_of_rest he, hident, htext', if_true]
      refine .next he fun e he => .pure_bind ?_
      exact .skipWhitespace he hblanks'' hend fun _ h => .pure h

theorem consumes_attributeSelector (opener : Token) :
    Consumes c (attributeSelector opener) fun a us => a.opener = opener ∧ a.WrittenBehind us := by
  unfold attributeSelector
  refine .skipWhitespace fun d before _ hbefore _ => ?_
  refine .bind consumes_qualifier ?_
  rintro q _ e - ⟨rfl, hq⟩
  refine .consume fun name hname _ => .skipWhitespace fun d behind _ hbehind _ => ?_
  refine .bind consumes_matcher ?_
  rintro m _ e - ⟨rfl, hm⟩
  cases m with
  | none =>
      simp only [Option.isSome_none]
      exact .pure_bind (.consume fun closer hcloser _ =>
        .pure ⟨rfl, .plain hbefore hq hname hbehind hcloser⟩)
  | some m =>
      simp only [Option.isSome_some, if_true]
      refine .bind consumes_attributeValue ?_
      rintro _ _ e - ⟨hblanks, hvalue, hblanks', hword, hblanks''⟩
      refine .pure_bind (.consume fun closer hcloser _ => .pure ⟨rfl, ?_⟩)
      simpa only [matcherYield, Option.map_some, Option.getD_some, List.append_assoc,
        List.cons_append] using Attribute.WrittenBehind.valued hbefore hq hname hbehind (hm m rfl) hblanks hvalue hblanks' hword
          hblanks'' hcloser

theorem startsQualifier_matcher {m : Matcher} (hm : m.Proper) (vs : List Value) :
    startsQualifier (m.yield ++ vs) = false := by
  obtain ⟨sign, equals⟩ := m
  have hequals : equals.type = .delim ∧ equals.text = "=" := by
    simpa [Token.isDelim] using hm.equals
  cases sign with
  | none =>
      refine startsQualifier_of_front ?_
      simp [Value.isDelim, Token.isDelim, hequals]
  | some t =>
      have hname : (Value.token equals).isName = false :=
        isName_of_isDelim (v := .token equals) hm.equals (by decide)
      change ((Value.token t).isDelim "|" && (Value.token equals).isName) = false
      rw [hname, Bool.and_false]

theorem matcher_front_not_blank {m : Matcher} (hm : m.Proper) {v : Value} {vs : List Value}
    (h : v ∈ (m.yield ++ vs).head?) :
    v.isWhitespace = false := by
  obtain ⟨_ | sign, equals⟩ := m
  · cases h
    exact isWhitespace_of_isDelim (v := .token equals) hm.equals
  · cases h
    simp [Value.isWhitespace, Value.hasType, (hm.sign sign rfl).1]

theorem qualifier_front_not_blank {q : Option Qualifier} (hq : ∀ p ∈ q, p.Proper) {v w : Value}
    {vs : List Value} (hw : w.isName = true) (h : v ∈ (qualifierYield q ++ w :: vs).head?) :
    v.isWhitespace = false := by
  obtain _ | ⟨_ | name, bar⟩ := q
  · cases h
    exact isWhitespace_of_isName hw
  · cases h
    exact isWhitespace_of_isDelim (v := .token bar) (hq _ rfl).bar
  · cases h
    exact isWhitespace_of_isName ((hq _ rfl).name name rfl)

/-- An attribute is read wherever it stands. -/
theorem reads_attributeSelector {a : Attribute} {us rest : List Value} (ha : a.WrittenBehind us)
    (hrest : c.rest = us ++ rest) :
    Reads c (attributeSelector a.opener) a rest := by
  unfold attributeSelector
  cases ha with
  | plain hbefore hq hname hbehind hcloser =>
      rename_i opener name closer q before behind
      simp only [List.append_assoc, List.cons_append, List.nil_append] at hrest
      have hisName : (Value.token name).isName = true := by
        simp [Value.isName, Value.hasType, hname]
      refine .skipWhitespace hrest hbefore (fun v => qualifier_front_not_blank hq hisName) ?_
      intro d hd
      refine .bind (reads_qualifier hq hd hisName ?_) fun d hd => ?_
      · refine startsQualifier_of_blank hbehind (startsQualifier_of_front ?_)
        simp [Value.isDelim, Token.isDelim, hcloser]
      refine .consume hd hname fun d hd => .skipWhitespace hd hbehind ?_ fun d hd => ?_
      · rintro _ ⟨rfl⟩
        simp [Value.isWhitespace, Value.hasType, hcloser]
      refine .bind (reads_matcher_none hd (by simp [hcloser])) fun d hd => ?_
      simp only [Option.isSome_none]
      exact .pure_bind (.consume hd hcloser fun d hd => .pure hd)
  | valued hbefore hq hname hbehind hm hblanks hvalue hblanks' hword hblanks'' hcloser =>
      rename_i opener name value closer q m modifier before behind blanks blanks' blanks''
      simp only [List.append_assoc, List.cons_append, List.nil_append] at hrest
      have hisName : (Value.token name).isName = true := by
        simp [Value.isName, Value.hasType, hname]
      refine .skipWhitespace hrest hbefore (fun v => qualifier_front_not_blank hq hisName) ?_
      intro d hd
      refine .bind (reads_qualifier hq hd hisName ?_) fun d hd => ?_
      · exact startsQualifier_of_blank hbehind (startsQualifier_matcher hm _)
      refine .consume hd hname fun d hd => .skipWhitespace hd hbehind ?_ fun d hd => ?_
      · exact fun v => matcher_front_not_blank hm
      refine .bind (reads_matcher hm hd) fun d hd => ?_
      simp only [Option.isSome_some, if_true]
      have hwritten := ValueWritten.intro hblanks hvalue hblanks' hword hblanks''
      have hread : Reads d attributeValue (value, modifier) (.token closer :: rest) :=
        reads_attributeValue hwritten
          (by simpa only [List.append_assoc, List.cons_append] using hd) hcloser
      refine .bind hread fun d hd => ?_
      exact .pure_bind (.consume hd hcloser fun d hd => .pure hd)

/-! ## Runs whose brackets match -/

/-- The values close, one after the other, the groups that are open, and all they open themselves. -/
def Closes : List TokenType → List Value → Prop
  | [], vs => BalancedRun vs
  | type :: due, vs =>
      ∃ us t ws, vs = us ++ .token t :: ws ∧ BalancedRun us ∧ t.type = type ∧ Closes due ws

theorem Closes.inner {due : List TokenType} {v : Value} {vs : List Value} (hv : v.IsInner)
    (h : Closes due vs) :
    Closes due (v :: vs) := by
  cases due with
  | nil => exact BalancedRun.inner hv h
  | cons type due =>
      obtain ⟨us, t, ws, rfl, hus, ht, hws⟩ := h
      exact ⟨v :: us, t, ws, rfl, .inner hv hus, ht, hws⟩

theorem Closes.opens {due : List TokenType} {t : Token} {type : TokenType} {vs : List Value}
    (ht : t.type.closer? = some type) (h : Closes (type :: due) vs) :
    Closes due (.token t :: vs) := by
  obtain ⟨us, closer, ws, rfl, hus, rfl, hws⟩ := h
  cases due with
  | nil => exact BalancedRun.group ht hus hws
  | cons type due =>
      obtain ⟨us', closer', ws', rfl, hus', htype, hws'⟩ := hws
      refine ⟨.token t :: (us ++ .token closer :: us'), closer', ws', ?_, .group ht hus hus', htype, hws'⟩
      simp

theorem Closes.closes {due : List TokenType} {t : Token} {vs : List Value} (h : Closes due vs) :
    Closes (t.type :: due) (.token t :: vs) :=
  ⟨[], t, vs, rfl, .nil, rfl, h⟩

theorem consumes_balancedFrom (n : Nat) (due : List TokenType) (read : List Value)
    (hn : c.rest.length < n) :
    Consumes c (balancedFrom true n due read) fun run us =>
      run = read.reverse ++ us ∧ (Closes due us ∨ us = c.rest) := by
  induction n generalizing c due read with
  | zero => exact absurd hn (Nat.not_lt_zero _)
  | succ n ih =>
      have hstep : ∀ {v : Value} (due' : List TokenType), c.peek 0 = some v →
          (∀ us, Closes due' us → Closes due (v :: us)) →
          Consumes c (Scan.next >>= fun _ => balancedFrom true n due' (v :: read)) fun run us =>
            run = read.reverse ++ us ∧ (Closes due us ∨ us = c.rest) := by
        intro v due' hpeek hdue
        have hrest := Cursor.rest_of_peek_eq hpeek
        have hn' : c.next.2.rest.length < n := by
          rw [hrest, List.length_cons] at hn
          exact Nat.lt_of_succ_lt_succ hn
        refine .next hpeek ((ih due' (v :: read) hn').mono ?_)
        rintro run us ⟨rfl, hus⟩
        refine ⟨by simp, hus.imp (hdue us) ?_⟩
        rintro rfl
        exact hrest.symm
      rw [balancedFrom]
      refine .look ?_
      cases hfront : c.peek 0 with
      | none =>
          refine .pure ⟨(List.append_nil _).symm, .inr ?_⟩
          rw [Cursor.peek_eq_getElem?, List.getElem?_eq_none_iff] at hfront
          exact (List.length_eq_zero_iff.mp (Nat.le_zero.mp hfront)).symm
      | some v =>
          cases v with
          | token t =>
              cases hopens : t.type.closer? with
              | some type =>
                  simp only [hopens, Option.isSome_some, if_true]
                  refine hstep (dueAfter t due) hfront fun us hus => ?_
                  rw [dueAfter, hopens] at hus
                  exact hus.opens hopens
              | none =>
                  simp only [hopens, Option.isSome_none]
                  cases hcloser : t.type.isCloser with
                  | true =>
                      cases due with
                      | nil => exact .pure ⟨(List.append_nil _).symm, .inl .nil⟩
                      | cons expected due =>
                          simp only [if_true]
                          by_cases htype : t.type = expected
                          · simp only [htype, if_true]
                            refine hstep due hfront fun us hus => ?_
                            exact htype ▸ hus.closes
                          · simp only [htype, if_false]
                            exact .failAt _ _
                  | false =>
                      refine hstep due hfront fun us hus => hus.inner ?_
                      rintro _ ⟨rfl⟩
                      exact ⟨hopens, hcloser⟩
          | block _ _ _ => exact hstep due hfront fun us hus => hus.inner (by rintro _ ⟨⟩)
          | call _ _ _ _ => exact hstep due hfront fun us hus => hus.inner (by rintro _ ⟨⟩)
          | reference _ _ => exact hstep due hfront fun us hus => hus.inner (by rintro _ ⟨⟩)

theorem consumes_balanced :
    Consumes c (balanced true) fun run us => run = us ∧ (BalancedRun us ∨ us = c.rest) :=
  .look (consumes_balancedFrom _ [] [] (Nat.lt_succ_of_le c.length_rest_le))

/-- A run whose brackets match is passed as a whole. -/
theorem reads_balancedFrom {us rest run out : List Value} (hus : BalancedRun us) (n : Nat)
    (due : List TokenType) (read : List Value) (hrest : c.rest = us ++ rest)
    (h : ∀ d, d.rest = rest → Reads d (balancedFrom true n due (us.reverse ++ read)) run out) :
    Reads c (balancedFrom true (n + us.length) due read) run out := by
  induction hus generalizing c n due read rest with
  | nil => exact h c hrest
  | @inner v vs hv _ ih =>
      have hbehind : Reads c (Scan.next >>= fun _ => balancedFrom true (n + vs.length) due (v :: read))
          run out := by
        refine .next hrest fun d hd => ih n due (v :: read) hd fun e he => ?_
        simpa only [List.reverse_cons, List.append_assoc, List.singleton_append] using h e he
      rw [List.length_cons, ← Nat.add_assoc, balancedFrom]
      refine .look ?_
      rw [Cursor.peek_of_rest hrest]
      cases v with
      | token t =>
          obtain ⟨hopens, hcloser⟩ := hv t rfl
          simp only [hopens, hcloser]
          exact hbehind
      | _ => exact hbehind
  | @group opener closer us vs hpair _ _ ihus ihvs =>
      have hclose : ∀ d, d.rest = .token closer :: (vs ++ rest) →
          Reads d (balancedFrom true (n + vs.length + 1) (closer.type :: due)
            (us.reverse ++ .token opener :: read)) run out := by
        intro d hd
        have hcloser := TokenType.isCloser_of_closer? hpair
        have hopens := TokenType.closer?_of_isCloser hcloser
        rw [balancedFrom]
        refine .look ?_
        simp only [Cursor.peek_of_rest hd, hopens, hcloser, Option.isSome_none, if_true]
        refine .next hd fun e he => ihvs n due _ he fun d hd => ?_
        simpa using h d hd
      have hlength : n + (Value.token opener :: (us ++ .token closer :: vs)).length =
          n + vs.length + 1 + us.length + 1 := by
        simp only [List.length_cons, List.length_append]
        omega
      rw [hlength, balancedFrom]
      refine .look ?_
      have hdue : dueAfter opener due = closer.type :: due := by
        rw [dueAfter, hpair]
      simp only [Cursor.peek_of_rest hrest, hpair, Option.isSome_some, if_true, hdue]
      refine .next hrest fun d hd => ihus _ _ _ ?_ hclose
      simpa using hd

/-- A run whose brackets match is read up to a closer. -/
theorem reads_balanced {us vs : List Value} {closer : Token} (hus : BalancedRun us)
    (hcloser : closer.type.isCloser = true) (hrest : c.rest = us ++ .token closer :: vs) :
    Reads c (balanced true) us (.token closer :: vs) := by
  refine .look ?_
  have hlength : us.length < c.items.length := by
    refine Nat.lt_of_lt_of_le ?_ c.length_rest_le
    rw [hrest, List.length_append, List.length_cons]
    omega
  obtain ⟨n, hn⟩ := Nat.exists_eq_add_of_lt hlength
  have hfuel : c.items.length + 1 = n + 1 + 1 + us.length := by omega
  rw [hfuel]
  refine reads_balancedFrom hus _ [] [] hrest fun d hd => ?_
  rw [balancedFrom]
  refine .look ?_
  simp only [Cursor.peek_of_rest hd, TokenType.closer?_of_isCloser hcloser, hcloser,
    Option.isSome_none, if_true, List.append_nil, List.reverse_reverse]
  exact .pure hd

/-! ## Pseudo-classes and other conditions -/

theorem consumes_pseudoClass :
    Consumes c pseudoClass PseudoClass.WrittenAs := by
  unfold pseudoClass
  refine .consume fun colon hcolon _ => .look ?_
  cases hfront : c.next.2.peek 0 with
  | none => exact .failAt _ _
  | some v =>
      cases v with
      | token t =>
          by_cases hident : t.type = .ident
          · simp only [hident, if_true]
            exact .next hfront (.pure (.plain hcolon hident))
          · by_cases hfunction : t.type = .function
            · simp only [hfunction, if_true]
              refine .next hfront (.bind consumes_balanced ?_)
              rintro run us d hsplit ⟨rfl, hrun⟩
              refine .consume fun closer hcloser hpeek => .pure ?_
              rcases hrun with hrun | hall
              · exact .function hcolon hfunction hrun hcloser
              · -- The run has taken everything, and nothing is left to close it.
                rw [← hall, Cursor.rest_of_peek_eq hpeek] at hsplit
                simp at hsplit
            · simp only [hident, hfunction, if_false]
              exact .failAt _ _
      | call name args commas closer =>
          cases closer with
          | none => exact .throw _
          | some closer => exact .next hfront (.pure (.call hcolon))
      | _ => exact .failAt _ _

/-- A pseudo-class is read wherever it stands. -/
theorem reads_pseudoClass {p : PseudoClass} {us rest : List Value} (hp : p.WrittenAs us)
    (hrest : c.rest = us ++ rest) :
    Reads c pseudoClass p rest := by
  unfold pseudoClass
  cases hp with
  | plain hcolon hname =>
      refine .consume hrest hcolon fun d hd => .look ?_
      simp only [Cursor.peek_of_rest hd, hname, if_true]
      exact .next hd fun e he => .pure he
  | @function _ _ closer argument hcolon hname hrun hcloser =>
      refine .consume hrest hcolon fun d hd => .look ?_
      simp only [Cursor.peek_of_rest hd, hname, if_true]
      refine .next hd fun e he => ?_
      have he' : e.rest = argument ++ .token closer :: rest := by simpa using he
      refine .bind (reads_balanced hrun (by simp [hcloser, TokenType.isCloser]) he') fun d hd => ?_
      exact .consume hd hcloser fun e he => .pure he
  | call hcolon =>
      refine .consume hrest hcolon fun d hd => .look ?_
      simp only [Cursor.peek_of_rest hd, Option.isSome_some, if_true]
      exact .next hd fun e he => .pure he

/-- The values write what is there, or nothing. -/
inductive WrittenOption (W : α → List Value → Prop) : Option α → List Value → Prop
  | none : WrittenOption W none []
  | some {a : α} {us : List Value} : W a us → WrittenOption W (some a) us

theorem consumes_inside {vs : List Value} {V : α → List Value → Prop}
    (hx : Consumes (.ofValues vs 0) x V) :
    Consumes c (inside vs x) fun a us => us = [] ∧ ∃ ws ws', vs = ws ++ ws' ∧ V a ws := by
  intro a d h
  unfold inside at h
  split at h
  · next b e hrun =>
      cases h
      obtain ⟨us, hus, hV⟩ := hx _ _ hrun
      rw [Cursor.rest_ofValues] at hus
      exact ⟨[], rfl, rfl, us, e.rest, hus, hV⟩
  · cases h

theorem reads_inside {vs rest : List Value} {a : α} (hx : Reads (.ofValues vs 0) x a rest) :
    Reads c (inside vs x) a c.rest := by
  obtain ⟨d, hrun, _⟩ := hx
  exact ⟨c, by rw [inside, hrun], rfl⟩

theorem consumes_subclass :
    Consumes c subclass (WrittenOption Subclass.WrittenAs) := by
  unfold subclass
  refine .look ?_
  cases hfront : c.peek 0 with
  | none => exact .pure .none
  | some v =>
      cases v with
      | token t =>
          by_cases hhash : t.type = .hash
          · simp only [hhash, if_true]
            cases hid : t.isIdHash with
            | true => exact .next hfront (.pure (.some (.id hid)))
            | false => exact .failAt _ _
          simp only [hhash, if_false]
          by_cases hdot : t.isDelim "." = true
          · simp only [hdot, if_true]
            exact .next hfront (.consume fun ident hident _ => .pure (.some (.className hdot hident)))
          simp only [hdot]
          by_cases hampersand : t.isDelim "&" = true
          · simp only [hampersand, if_true]
            exact .next hfront (.pure (.some (.nesting hampersand)))
          simp only [hampersand]
          by_cases hbracket : t.type = .openBracket
          · simp only [hbracket, if_true]
            refine .next hfront (.bind (consumes_attributeSelector t) ?_)
            rintro a us d - ⟨rfl, ha⟩
            refine .pure (.some (.attr ?_))
            rw [List.append_nil]
            exact .flat hbracket ha
          simp only [hbracket, if_false]
          refine .look ?_
          split
          · refine .bind consumes_pseudoClass fun p us d _ hp => .pure ?_
            rw [List.append_nil]
            exact .some (.pseudo hp)
          · exact .pure .none
      | block opener contents closer =>
          by_cases hbracket : opener.type = .openBracket
          · simp only [hbracket, if_true]
            cases closer with
            | none => exact .throw _
            | some closer =>
                refine .next hfront (.bind (consumes_inside (consumes_attributeSelector opener)) ?_)
                rintro a _ d - ⟨rfl, us, vs, hsplit, rfl, ha⟩
                exact .pure (.some (.attr (.block hbracket ha hsplit)))
          · simp only [hbracket, if_false]
            exact .pure .none
      | _ => exact .pure .none

/-- A condition is read wherever it stands. -/
theorem reads_subclass {p : Subclass} {us rest : List Value} (hp : p.WrittenAs us)
    (hrest : c.rest = us ++ rest) :
    Reads c subclass (some p) rest := by
  unfold subclass
  refine .look ?_
  cases hp with
  | @id hash hhash =>
      have htype : hash.type = .hash := beq_iff_eq.mp (Bool.and_eq_true_iff.mp hhash).1
      simp only [Cursor.peek_of_rest hrest, htype, hhash, if_true]
      exact .next hrest fun d hd => .pure hd
  | @className dot ident hdot hident =>
      have htype : dot.type = .delim ∧ dot.text = "." := by simpa [Token.isDelim] using hdot
      simp only [Cursor.peek_of_rest hrest, htype.1, hdot, if_true, if_false, reduceCtorEq]
      exact .next hrest fun d hd => .consume hd hident fun e he => .pure he
  | @nesting ampersand hampersand =>
      have htype : ampersand.type = .delim ∧ ampersand.text = "&" := by
        simpa [Token.isDelim] using hampersand
      have hdot : ampersand.isDelim "." = false := by simp [Token.isDelim, htype]
      simp only [Cursor.peek_of_rest hrest, htype.1, hdot, hampersand, if_true, if_false, reduceCtorEq]
      exact .next hrest fun d hd => .pure hd
  | @attr a us ha =>
      cases ha with
      | @flat vs hopener ha =>
          have hdelim : ∀ text, a.opener.isDelim text = false := by simp [Token.isDelim, hopener]
          simp only [Cursor.peek_of_rest hrest, hopener, hdelim, if_true, if_false, reduceCtorEq]
          exact .next hrest fun d hd => .bind (reads_attributeSelector ha hd) fun e he => .pure he
      | @block contents us vs closer hopener ha hsplit =>
          simp only [Cursor.peek_of_rest hrest, hopener, if_true]
          refine .next hrest fun d hd => ?_
          have hinner : (Cursor.ofValues (contents ++ [.token closer]) 0).rest = us ++ vs := by
            rw [Cursor.rest_ofValues, hsplit]
          refine .bind (reads_inside (reads_attributeSelector ha hinner)) fun e he => ?_
          exact .pure (he.trans hd)
  | @pseudo p us hp =>
      obtain ⟨colon, v, vs, rfl, hcolon, hv⟩ := hp.front
      have hdelim : ∀ text, colon.isDelim text = false := by simp [Token.isDelim, hcolon]
      simp only [Cursor.peek_of_rest hrest, hcolon, hdelim, if_false, reduceCtorEq]
      refine .look ?_
      have hsecond : c.check 1 .colon = false := by
        rw [Cursor.check, Cursor.peek_eq_getElem?, hrest]
        exact hv
      simp only [hsecond, Bool.false_eq_true, not_false_eq_true, and_self, if_true]
      exact .bind (reads_pseudoClass hp hrest) fun d hd => .pure hd

/-- A condition stands first. -/
def startsSubclass : List Value → Bool
  | .token t :: vs =>
      t.type == .hash || t.isDelim "." || t.isDelim "&" || t.type == .openBracket ||
        (t.type == .colon && !vs.head?.any (·.hasType .colon))
  | .block opener _ _ :: _ => opener.type == .openBracket
  | _ => false

theorem reads_subclass_none {vs : List Value} (hrest : c.rest = vs)
    (h : startsSubclass vs = false) :
    Reads c subclass none vs := by
  unfold subclass
  refine .look ?_
  cases vs with
  | nil =>
      have hpeek : c.peek 0 = none := by
        rw [Cursor.peek_eq_getElem?, hrest]
        rfl
      rw [hpeek]
      exact .pure hrest
  | cons v vs =>
      rw [Cursor.peek_of_rest hrest]
      cases v with
      | token t =>
          simp only [startsSubclass, Bool.or_eq_false_iff, beq_eq_false_iff_ne] at h
          obtain ⟨⟨⟨⟨hhash, hdot⟩, hampersand⟩, hbracket⟩, hcolon⟩ := h
          simp only [hhash, hdot, hampersand, hbracket, if_false, Bool.false_eq_true]
          refine .look ?_
          have hsecond : c.check 1 .colon = vs.head?.any (·.hasType .colon) := by
            rw [Cursor.check, Cursor.peek_eq_getElem?, hrest, List.head?_eq_getElem?]
            rfl
          have hcond : ¬ (t.type = .colon ∧ ¬ c.check 1 .colon = true) := by
            rintro ⟨htype, hnext⟩
            simp [htype, ← hsecond, hnext] at hcolon
          simp only [hcond, if_false]
          exact .pure hrest
      | block opener contents closer =>
          have hopener : opener.type ≠ .openBracket := by simpa [startsSubclass] using h
          simp only [hopener, if_false]
          exact .pure hrest
      | _ => exact .pure hrest

/-! ## Sequences -/

theorem consumes_subclasses (n : Nat) :
    Consumes c (subclasses n) (WrittenAll Subclass.WrittenAs) := by
  induction n generalizing c with
  | zero => exact .pure .nil
  | succ n ih =>
      rw [subclasses]
      refine .bind consumes_subclass ?_
      rintro o us d - ho
      cases ho with
      | none => exact .pure .nil
      | some hp => exact .bind ih fun ps vs e _ hps => .pure (by simpa using WrittenAll.cons hp hps)

theorem consumes_pseudoClasses (n : Nat) :
    Consumes c (pseudoClasses n) (WrittenAll PseudoClass.WrittenAs) := by
  induction n generalizing c with
  | zero => exact .pure .nil
  | succ n ih =>
      rw [pseudoClasses]
      refine .look ?_
      split
      · refine .bind consumes_pseudoClass fun p us d _ hp => ?_
        exact .bind ih fun ps vs e _ hps => .pure (by simpa using WrittenAll.cons hp hps)
      · exact .pure .nil

theorem consumes_pseudoElements (n : Nat) :
    Consumes c (pseudoElements n) (WrittenAll PseudoElement.WrittenAs) := by
  induction n generalizing c with
  | zero => exact .pure .nil
  | succ n ih =>
      rw [pseudoElements]
      refine .look ?_
      split
      · refine .consume fun colon hcolon _ => .bind consumes_pseudoClass fun p us d _ hp => ?_
        refine .look (.bind (consumes_pseudoClasses _) fun ps vs e _ hps => ?_)
        refine .bind ih fun es ws e _ hes => .pure ?_
        have helement : PseudoElement.WrittenAs ⟨colon, p, ps⟩ (.token colon :: (us ++ vs)) :=
          .intro hcolon hp hps
        simpa using WrittenAll.cons helement hes
      · exact .pure .nil

/-- Two colons stand first. -/
def startsElement : List Value → Bool
  | v :: w :: _ => v.hasType .colon && w.hasType .colon
  | _ => false

theorem check_zero_eq (c : Cursor) (type : TokenType) :
    c.check 0 type = c.rest.head?.any (·.hasType type) := by
  rw [Cursor.check, Cursor.peek_eq_getElem?, List.head?_eq_getElem?]

theorem isPseudoElement_eq (c : Cursor) :
    isPseudoElement c = startsElement c.rest := by
  rw [isPseudoElement, Cursor.check, Cursor.check, Cursor.peek_eq_getElem?, Cursor.peek_eq_getElem?]
  rcases c.rest with _ | ⟨v, _ | ⟨w, vs⟩⟩
  · rfl
  · exact Bool.and_false _
  · rfl

/-- The bound on a sequence is no less than its length. -/
theorem length_le_items {W : α → List Value → Prop} {as : List α} {us rest : List Value}
    (has : WrittenAll W as us) (hW : ∀ a vs, W a vs → vs ≠ []) (hrest : c.rest = us ++ rest) :
    as.length ≤ c.items.length :=
  calc as.length ≤ us.length := has.length_le hW
    _ ≤ c.rest.length := by rw [hrest, List.length_append]; omega
    _ ≤ c.items.length := c.length_rest_le

theorem reads_subclasses {ps : List Subclass} {us rest : List Value}
    (hps : WrittenAll Subclass.WrittenAs ps us) (hbehind : startsSubclass rest = false) (n : Nat)
    (hn : ps.length ≤ n) (hrest : c.rest = us ++ rest) :
    Reads c (subclasses n) ps rest := by
  induction hps generalizing c n with
  | nil =>
      cases n with
      | zero => exact .pure hrest
      | succ n =>
          rw [subclasses]
          exact .bind (reads_subclass_none hrest hbehind) fun d hd => .pure hd
  | @cons p ps us vs hp _ ih =>
      cases n with
      | zero => exact absurd hn (Nat.not_succ_le_zero _)
      | succ n =>
          rw [subclasses]
          rw [List.append_assoc] at hrest
          refine .bind (reads_subclass hp hrest) fun d hd => ?_
          exact .bind (ih n (Nat.le_of_succ_le_succ hn) hd) fun e he => .pure he

theorem reads_pseudoClasses {ps : List PseudoClass} {us rest : List Value}
    (hps : WrittenAll PseudoClass.WrittenAs ps us)
    (hbehind : rest.head?.any (·.hasType .colon) = true → startsElement rest = true) (n : Nat)
    (hn : ps.length ≤ n) (hrest : c.rest = us ++ rest) :
    Reads c (pseudoClasses n) ps rest := by
  induction hps generalizing c n with
  | nil =>
      cases n with
      | zero => exact .pure hrest
      | succ n =>
          have hcond : (c.check 0 .colon && !isPseudoElement c) = false := by
            rw [check_zero_eq, isPseudoElement_eq, hrest, List.nil_append]
            cases hcolon : rest.head?.any (·.hasType .colon) with
            | false => rfl
            | true => rw [hbehind hcolon]; rfl
          rw [pseudoClasses]
          refine .look ?_
          simp only [hcond]
          exact .pure hrest
  | @cons p ps us vs hp _ ih =>
      cases n with
      | zero => exact absurd hn (Nat.not_succ_le_zero _)
      | succ n =>
          rw [List.append_assoc] at hrest
          have hcond : (c.check 0 .colon && !isPseudoElement c) = true := by
            obtain ⟨colon, v, ws, rfl, hcolon, hv⟩ := hp.front
            rw [check_zero_eq, isPseudoElement_eq, hrest]
            simp [startsElement, Value.hasType, hcolon]
            exact hv
          rw [pseudoClasses]
          refine .look ?_
          simp only [hcond, if_true]
          refine .bind (reads_pseudoClass hp hrest) fun d hd => ?_
          exact .bind (ih n (Nat.le_of_succ_le_succ hn) hd) fun e he => .pure he

theorem front_of_elements {es : List PseudoElement} {us : List Value}
    (hes : WrittenAll PseudoElement.WrittenAs es us) (rest : List Value) :
    us ++ rest = rest ∨ ∃ t u vs, us ++ rest = .token t :: .token u :: vs ∧ t.type = .colon ∧
      u.type = .colon := by
  cases hes with
  | nil => exact .inl rfl
  | cons he _ =>
      obtain ⟨t, u, vs, rfl, ht, hu⟩ := he.front
      exact .inr ⟨t, u, _, rfl, ht, hu⟩

theorem reads_pseudoElements {es : List PseudoElement} {us rest : List Value}
    (hes : WrittenAll PseudoElement.WrittenAs es us)
    (hbehind : rest.head?.any (·.hasType .colon) = false) (n : Nat)
    (hn : es.length ≤ n) (hrest : c.rest = us ++ rest) :
    Reads c (pseudoElements n) es rest := by
  induction hes generalizing c n with
  | nil =>
      cases n with
      | zero => exact .pure hrest
      | succ n =>
          have hcond : isPseudoElement c = false := by
            rw [isPseudoElement, check_zero_eq, hrest, List.nil_append, hbehind, Bool.false_and]
          rw [pseudoElements]
          refine .look ?_
          simp only [hcond]
          exact .pure hrest
  | @cons e es us vs he hes ih =>
      cases n with
      | zero => exact absurd hn (Nat.not_succ_le_zero _)
      | succ n =>
          have hcond : isPseudoElement c = true := by
            obtain ⟨t, u, ws, rfl, ht, hu⟩ := he.front
            rw [isPseudoElement_eq, hrest]
            simp [startsElement, Value.hasType, ht, hu]
          rw [pseudoElements]
          refine .look ?_
          simp only [hcond, if_true]
          cases he with
          | @intro us₁ us₂ hcolon helement hclasses =>
              simp only [List.append_assoc, List.cons_append] at hrest
              refine .consume hrest hcolon fun d hd => ?_
              refine .bind (reads_pseudoClass helement hd) fun d hd => .look ?_
              have hlength : e.classes.length ≤ d.items.length := by
                refine length_le_items hclasses (fun p vs hp => ?_) hd
                obtain ⟨_, _, _, rfl, _⟩ := hp.front
                simp
              refine .bind (reads_pseudoClasses hclasses ?_ _ hlength hd) fun d hd => ?_
              · intro hhead
                rcases front_of_elements hes rest with hnone | ⟨t, u, ws, hws, ht, hu⟩
                · rw [hnone, hbehind] at hhead
                  cases hhead
                · rw [hws]
                  simp [startsElement, Value.hasType, ht, hu]
              · exact .bind (ih n (Nat.le_of_succ_le_succ hn) hd) fun e he => .pure he

/-! ## Compounds -/

/-- What may stand behind a compound: nothing, a blank, or a combinator. -/
def EndsCompound : List Value → Prop
  | [] => True
  | v :: vs =>
      v.isWhitespace = true ∨
      (∃ kind ∈ [Combinator.child, .nextSibling, .laterSibling], v.isDelim kind.sign = true) ∨
      (v.isDelim "|" = true ∧ vs.head?.any (·.isDelim "|") = true)

theorem consumes_compound :
    Consumes c compound Compound.WrittenAs := by
  unfold compound
  refine .bind consumes_typeSelector ?_
  rintro type _ d - ⟨rfl, htype⟩
  refine .look (.bind (consumes_subclasses _) fun ps us d _ hps => ?_)
  refine .look (.bind (consumes_pseudoElements _) fun es vs d _ hes => ?_)
  cases hempty : Compound.isEmpty ⟨type, ps, es⟩ with
  | true =>
      simp only [hempty, if_true]
      exact .look (.failAt _ _)
  | false =>
      simp only [hempty]
      refine .pure ?_
      rw [List.append_nil]
      exact .intro htype hps hes hempty

theorem EndsCompound.hasType {vs : List Value} (h : EndsCompound vs) {type : TokenType}
    (hdelim : type ≠ .delim) (hblank : type ≠ .whitespace) :
    vs.head?.any (·.hasType type) = false := by
  cases vs with
  | nil => rfl
  | cons v vs =>
      rcases h with hv | ⟨kind, _, hv⟩ | ⟨hv, _⟩
      · cases v with
        | token t =>
            have ht : t.type = .whitespace := beq_iff_eq.mp hv
            simp [Value.hasType, ht, hblank.symm]
        | _ => rfl
      · exact hasType_of_isDelim hv hdelim
      · exact hasType_of_isDelim hv hdelim

theorem EndsCompound.isDelim {vs : List Value} (h : EndsCompound vs) {text : String}
    (htext : text ∉ [">", "+", "~", "|"]) :
    vs.head?.any (·.isDelim text) = false := by
  cases vs with
  | nil => rfl
  | cons v vs =>
      change v.isDelim text = false
      cases hv : v.isDelim text with
      | false => rfl
      | true =>
          exfalso
          refine htext ?_
          rcases h with hblank | ⟨kind, hkind, hsign⟩ | ⟨hbar, _⟩
          · rw [isWhitespace_of_isDelim hv] at hblank
            cases hblank
          · rw [eq_of_isDelim hv hsign]
            simp only [List.mem_cons, List.not_mem_nil, or_false] at hkind
            rcases hkind with rfl | rfl | rfl <;> simp [Combinator.sign]
          · rw [eq_of_isDelim hv hbar]
            simp

theorem EndsCompound.startsSubclass {vs : List Value} (h : EndsCompound vs) :
    startsSubclass vs = false := by
  obtain _ | ⟨_ | _ | _ | _, vs⟩ := vs
  · rfl
  · next t =>
      have htype : ∀ type, type ≠ .delim → type ≠ .whitespace → (t.type == type) = false :=
        fun _ hdelim hblank => h.hasType hdelim hblank
      have hdot : t.isDelim "." = false := h.isDelim (by decide)
      have hampersand : t.isDelim "&" = false := h.isDelim (by decide)
      simp [Scan.startsSubclass, htype, hdot, hampersand]
  · rcases h with h | ⟨_, _, h⟩ | ⟨h, _⟩ <;> cases h
  · rfl
  · rfl

theorem EndsCompound.startsQualifier {vs : List Value} (h : EndsCompound vs) :
    startsQualifier vs = false := by
  obtain _ | ⟨v, _ | ⟨w, vs⟩⟩ := vs
  · rfl
  · rfl
  · refine Bool.and_eq_false_iff.mpr ?_
    rcases h with hblank | ⟨kind, hkind, hsign⟩ | ⟨_, hbar⟩
    · refine .inl (Bool.eq_false_iff.mpr fun hv => ?_)
      rw [isWhitespace_of_isDelim hv] at hblank
      cases hblank
    · refine .inl (Bool.eq_false_iff.mpr fun hv => ?_)
      have hbar := eq_of_isDelim hv hsign
      simp only [List.mem_cons, List.not_mem_nil, or_false] at hkind
      rcases hkind with rfl | rfl | rfl <;> simp [Combinator.sign] at hbar
    · exact .inr (isName_of_isDelim hbar (by decide))

/-- What may stand first in a condition. -/
structure LeadsCondition (v : Value) : Prop where
  name : v.isName = false
  blank : v.isWhitespace = false
  delim : ∀ text, v.isDelim text = true → text ∈ [".", "&"]

theorem LeadsCondition.isDelim {v : Value} (h : LeadsCondition v) {text : String}
    (htext : text ∉ [".", "&"]) :
    v.isDelim text = false :=
  Bool.eq_false_iff.mpr fun hv => htext (h.delim text hv)

theorem LeadsCondition.of_type {t : Token} (hident : t.type ≠ .ident) (hblank : t.type ≠ .whitespace)
    (hdelim : t.type ≠ .delim) :
    LeadsCondition (.token t) where
  name := by simp [Value.isName, Value.hasType, Value.isDelim, Token.isDelim, hident, hdelim]
  blank := by simp [Value.isWhitespace, Value.hasType, hblank]
  delim := by simp [Value.isDelim, Token.isDelim, hdelim]

theorem LeadsCondition.of_delim {t : Token} {text : String} (ht : t.isDelim text = true)
    (htext : text ∈ [".", "&"]) :
    LeadsCondition (.token t) where
  name := by
    refine isName_of_isDelim (v := .token t) ht ?_
    rintro rfl
    exact absurd htext (by decide)
  blank := isWhitespace_of_isDelim (v := .token t) ht
  delim := fun _ h => eq_of_isDelim h ht ▸ htext

theorem front_of_subclass {p : Subclass} {us : List Value} (hp : p.WrittenAs us) :
    ∃ v vs, us = v :: vs ∧ LeadsCondition v := by
  cases hp with
  | @id hash hhash =>
      have htype : hash.type = .hash := beq_iff_eq.mp (Bool.and_eq_true_iff.mp hhash).1
      exact ⟨_, _, rfl, .of_type (by simp [htype]) (by simp [htype]) (by simp [htype])⟩
  | className hdot _ => exact ⟨_, _, rfl, .of_delim hdot (by decide)⟩
  | nesting hampersand => exact ⟨_, _, rfl, .of_delim hampersand (by decide)⟩
  | attr ha =>
      cases ha with
      | flat hopener _ =>
          exact ⟨_, _, rfl, .of_type (by simp [hopener]) (by simp [hopener]) (by simp [hopener])⟩
      | block _ _ _ => exact ⟨_, _, rfl, rfl, rfl, nofun⟩
  | pseudo hp =>
      obtain ⟨colon, v, vs, rfl, hcolon, _⟩ := hp.front
      exact ⟨_, _, rfl, .of_type (by simp [hcolon]) (by simp [hcolon]) (by simp [hcolon])⟩

theorem front_of_conditions {ps : List Subclass} {es : List PseudoElement} {us vs : List Value}
    (hps : WrittenAll Subclass.WrittenAs ps us) (hes : WrittenAll PseudoElement.WrittenAs es vs)
    (rest : List Value) :
    (ps = [] ∧ es = [] ∧ us ++ (vs ++ rest) = rest) ∨
      ∃ v ws, us ++ (vs ++ rest) = v :: ws ∧ LeadsCondition v := by
  cases hps with
  | nil =>
      cases hes with
      | nil => exact .inl ⟨rfl, rfl, rfl⟩
      | cons he _ =>
          obtain ⟨t, u, ws, rfl, ht, _⟩ := he.front
          exact .inr ⟨.token t, _, rfl, .of_type (by simp [ht]) (by simp [ht]) (by simp [ht])⟩
  | cons hp _ =>
      obtain ⟨v, ws, rfl, hv⟩ := front_of_subclass hp
      exact .inr ⟨v, _, rfl, hv⟩

/-- A compound is read where nothing behind it belongs to it. -/
theorem reads_compound {k : Compound} {us rest : List Value} (hk : k.WrittenAs us)
    (hrest : c.rest = us ++ rest) (hend : EndsCompound rest) :
    Reads c compound k rest := by
  unfold compound
  cases hk with
  | @intro us vs htype hps hes hempty =>
      simp only [List.append_assoc] at hrest
      have hfront := front_of_conditions hps hes rest
      have hbar : startsQualifier (us ++ (vs ++ rest)) = false := by
        rcases hfront with ⟨_, _, hnone⟩ | ⟨v, ws, hws, hv⟩
        · rw [hnone]
          exact hend.startsQualifier
        · rw [hws]
          exact startsQualifier_of_front (hv.isDelim (by decide))
      have hread : Reads c typeSelector k.type (us ++ (vs ++ rest)) := by
        cases hcase : k.type with
        | some t =>
            rw [hcase] at hrest
            exact reads_typeSelector (htype t hcase) hrest hbar
        | none =>
            rw [hcase] at hrest
            refine reads_typeSelector_none hrest ?_ hbar
            rcases hfront with ⟨hps, hes, _⟩ | ⟨v, ws, hws, hv⟩
            · simp [Compound.isEmpty, hcase, hps, hes] at hempty
            · rw [hws]
              exact hv.name
      have hsubclass : startsSubclass (vs ++ rest) = false := by
        rcases front_of_elements hes rest with hnone | ⟨t, u, ws, hws, ht, hu⟩
        · rw [hnone]
          exact hend.startsSubclass
        · rw [hws]
          simp [startsSubclass, Token.isDelim, Value.hasType, ht, hu]
      have hcolon : rest.head?.any (·.hasType .colon) = false :=
        hend.hasType (by decide) (by decide)
      refine .bind hread fun d hd => .look ?_
      have hlength : k.subclasses.length ≤ d.items.length := by
        refine length_le_items hps (fun p ws hp => ?_) hd
        obtain ⟨_, _, rfl, _⟩ := front_of_subclass hp
        simp
      refine .bind (reads_subclasses hps hsubclass _ hlength hd) fun d hd => .look ?_
      have hlength' : k.pseudos.length ≤ d.items.length := by
        refine length_le_items hes (fun e ws he => ?_) hd
        obtain ⟨_, _, _, rfl, _⟩ := he.front
        simp
      refine .bind (reads_pseudoElements hes hcolon _ hlength' hd) fun d hd => ?_
      simp only [hempty]
      exact .pure hd

/-! ## Complex selectors -/

/-- What may stand first in a compound: no blank and no combinator. -/
structure LeadsCompound (vs : List Value) : Prop where
  ne_nil : vs ≠ []
  blank : ∀ v ∈ vs.head?, v.isWhitespace = false
  sign : ∀ v ∈ vs.head?, ∀ kind ∈ [Combinator.child, .nextSibling, .laterSibling],
    v.isDelim kind.sign = false
  bar : ∀ v ∈ vs.head?, v.isDelim "|" = true → startsQualifier vs = true

theorem LeadsCompound.of_name {v : Value} {vs : List Value} (hv : v.isName = true) :
    LeadsCompound (v :: vs) := by
  have hdelim : ∀ text, text ≠ "*" → v.isDelim text = false := by
    intro text hne
    refine Bool.eq_false_iff.mpr fun h => ?_
    rw [isName_of_isDelim h hne] at hv
    cases hv
  refine ⟨by simp, ?_, ?_, ?_⟩
  · rintro _ ⟨rfl⟩
    exact isWhitespace_of_isName hv
  · rintro _ ⟨rfl⟩ kind hkind
    refine hdelim _ ?_
    revert kind
    decide
  · rintro _ ⟨rfl⟩ hbar
    rw [hdelim "|" (by decide)] at hbar
    cases hbar

theorem LeadsCompound.of_condition {v : Value} {vs : List Value} (hv : LeadsCondition v) :
    LeadsCompound (v :: vs) := by
  refine ⟨by simp, ?_, ?_, ?_⟩
  · rintro _ ⟨rfl⟩
    exact hv.blank
  · rintro _ ⟨rfl⟩ kind hkind
    refine hv.isDelim ?_
    revert kind
    decide
  · rintro _ ⟨rfl⟩ hbar
    rw [hv.isDelim (by decide)] at hbar
    cases hbar

theorem LeadsCompound.of_qualifier {q : Option Qualifier} (hq : ∀ p ∈ q, p.Proper) {v : Value}
    {vs : List Value} (hv : v.isName = true) :
    LeadsCompound (qualifierYield q ++ v :: vs) := by
  obtain _ | ⟨_ | name, bar⟩ := q
  · exact .of_name hv
  · have hbar : (Value.token bar).isDelim "|" = true := (hq _ rfl).bar
    refine ⟨by simp [qualifierYield, Qualifier.yield], ?_, ?_, ?_⟩
    · rintro _ ⟨rfl⟩
      exact isWhitespace_of_isDelim hbar
    · rintro _ ⟨rfl⟩ kind hkind
      refine Bool.eq_false_iff.mpr fun h => ?_
      have heq := eq_of_isDelim hbar h
      clear h
      revert kind
      decide
    · rintro _ ⟨rfl⟩ _
      exact Bool.and_eq_true_iff.mpr ⟨hbar, hv⟩
  · exact .of_name ((hq _ rfl).name name rfl)

theorem leads_of_compound {k : Compound} {us : List Value} (hk : k.WrittenAs us) (rest : List Value) :
    LeadsCompound (us ++ rest) := by
  cases hk with
  | @intro us vs htype hps hes hempty =>
      simp only [List.append_assoc]
      cases hcase : k.type with
      | none =>
          rcases front_of_conditions hps hes rest with ⟨hps, hes, _⟩ | ⟨v, ws, hws, hv⟩
          · simp [Compound.isEmpty, hcase, hps, hes] at hempty
          · simp only [Option.map_none, Option.getD_none, List.nil_append]
            rw [hws]
            exact .of_condition hv
      | some t =>
          cases t with
          | named q ident =>
              obtain ⟨hq, hident⟩ := htype _ hcase
              simp only [Option.map_some, Option.getD_some, TypeSelector.yield, List.append_assoc]
              exact .of_qualifier hq (by simp [Value.isName, Value.hasType, hident])
          | universal q star =>
              obtain ⟨hq, hstar⟩ := htype _ hcase
              simp only [Option.map_some, Option.getD_some, TypeSelector.yield, List.append_assoc]
              exact .of_qualifier hq (by simp [Value.isName, Value.isDelim, hstar])

theorem consumes_combinator (afterBlank : Bool) :
    Consumes c (combinator afterBlank) fun o us =>
      (o = none ∧ us = []) ∨ ∃ kind tokens, o = some (kind, tokens) ∧
        ∀ before behind, AllBlank before → AllBlank behind →
          Combinator.WrittenAs kind tokens (before ++ (us ++ behind)) := by
  unfold combinator
  refine .look ?_
  cases hfront : c.peekToken 0 with
  | none => exact .pure (.inl ⟨rfl, rfl⟩)
  | some t =>
      have hpeek := Cursor.peekToken_eq_some hfront
      by_cases hdelim : t.type = .delim
      · have hsign : ∀ kind ∈ [Combinator.child, .nextSibling, .laterSibling], t.text = kind.sign →
            Consumes c (combinator.sign t kind) fun o us =>
              (o = none ∧ us = []) ∨ ∃ kind tokens, o = some (kind, tokens) ∧
                ∀ before behind, AllBlank before → AllBlank behind →
                  Combinator.WrittenAs kind tokens (before ++ (us ++ behind)) := by
          intro kind hkind htext
          have ht : t.isDelim kind.sign = true := by simp [Token.isDelim, hdelim, htext]
          exact .next hpeek (.pure (.inr ⟨kind, [t], rfl, fun _ _ => .sign hkind ht⟩))
        simp only [hdelim, if_true]
        split
        · next htext => exact hsign .child (by decide) htext
        · next htext => exact hsign .nextSibling (by decide) htext
        · next htext => exact hsign .laterSibling (by decide) htext
        · next htext =>
            have ht : t.isDelim "|" = true := by simp [Token.isDelim, hdelim, htext]
            refine .look ?_
            split
            · exact .pure (.inl ⟨rfl, rfl⟩)
            · refine .next hpeek (.consumeDelim fun u hu _ => .pure (.inr ?_))
              exact ⟨.column, [t, u], rfl, fun _ _ => .column ht hu⟩
        · exact .pure (.inl ⟨rfl, rfl⟩)
      · simp only [hdelim, if_false]
        exact .pure (.inl ⟨rfl, rfl⟩)

/-- With a bound that suffices, all that is left has been read as compounds. -/
theorem consumes_parts (n : Nat) (hn : c.rest.length ≤ n) :
    Consumes c (parts n) fun ps us => us = c.rest ∧ WrittenAll SelectorPart.WrittenAs ps us := by
  induction n generalizing c with
  | zero =>
      have hnil : c.rest = [] := List.length_eq_zero_iff.mp (Nat.le_zero.mp hn)
      exact .pure ⟨hnil.symm, .nil⟩
  | succ n ih =>
      rw [parts]
      refine .look ?_
      cases hend : c.atEnd with
      | true =>
          have hnil : c.rest = [] := by
            rw [Cursor.atEnd, Cursor.peek_eq_getElem?, ← List.head?_eq_getElem?] at hend
            simpa using hend
          exact .pure ⟨hnil.symm, .nil⟩
      | false =>
          simp only [Bool.false_eq_true, if_false]
          refine .look (.skipWhitespace fun d before hbefore hblank hstop => ?_)
          refine .bind (consumes_combinator _) fun o us e he ho => ?_
          by_cases hcond : o.isNone = true ∧ ¬ c.check 0 .whitespace = true
          · simp only [hcond]
            exact .look (.failAt _ _)
          simp only [hcond, if_false]
          have hkind : ∀ behind, AllBlank behind →
              (o.getD (.descendant, [])).1.WrittenAs (o.getD (.descendant, [])).2
                (before ++ (us ++ behind)) := by
            intro behind hbehind
            rcases ho with ⟨rfl, rfl⟩ | ⟨kind, tokens, rfl, hwritten⟩
            · refine .blank (hblank.append hbehind) fun hnil => ?_
              -- The blank that was seen first has been skipped.
              have hseen : c.check 0 .whitespace = true := by simpa using hcond
              obtain rfl : before = [] := (List.append_eq_nil_iff.mp hnil).1
              rw [check_zero_eq, hbefore, List.nil_append] at hseen
              cases hd : d.rest with
              | nil => simp [hd] at hseen
              | cons v vs =>
                  rw [hd] at hseen hstop
                  have hv : v.isWhitespace = true := hseen
                  rw [hstop v rfl] at hv
                  cases hv
            · exact hwritten before behind hblank hbehind
          refine .skipWhitespace fun f behind hf hbehind _ => .look ?_
          cases hlast : f.atEnd with
          | true => exact .failAt _ _
          | false =>
              simp only [Bool.false_eq_true, if_false]
              refine .bind consumes_compound fun k vs g hg hk => ?_
              have hlength : g.rest.length ≤ n := by
                have hpos := List.length_pos_iff.mpr (List.append_nil vs ▸ (leads_of_compound hk []).ne_nil)
                rw [hbefore, he, hf, hg] at hn
                simp only [List.length_append] at hn
                omega
              refine .bind (ih hlength) ?_
              rintro ps _ i - ⟨rfl, hps⟩
              refine .pure ⟨?_, ?_⟩
              · rw [hbefore, he, hf, hg]
                simp
              · have hpart : SelectorPart.WrittenAs
                    ⟨(o.getD (.descendant, [])).1, (o.getD (.descendant, [])).2, k⟩ _ :=
                  .intro (hkind behind hbehind) hk
                simpa using WrittenAll.cons hpart hps

theorem consumes_complexSelector :
    Consumes c complexSelector fun s us => us = c.rest ∧ s.WrittenAs us := by
  unfold complexSelector
  refine .bind consumes_compound fun k us d hd hk => .look ?_
  refine .bind (consumes_parts _ d.length_rest_le) ?_
  rintro ps _ e - ⟨rfl, hps⟩
  refine .pure ⟨?_, ?_⟩
  · rw [hd, List.append_nil]
  · rw [List.append_nil]
    exact .intro hk hps

theorem reads_combinator_none {v : Value} {vs : List Value} (hrest : c.rest = v :: vs)
    (hsign : ∀ kind ∈ [Combinator.child, .nextSibling, .laterSibling], v.isDelim kind.sign = false)
    (hbar : v.isDelim "|" = true → startsQualifier (v :: vs) = true) :
    Reads c (combinator true) none (v :: vs) := by
  unfold combinator
  refine .look ?_
  cases hfront : c.peekToken 0 with
  | none => exact .pure hrest
  | some t =>
      obtain rfl : v = .token t := by
        have hpeek := Cursor.peekToken_eq_some hfront
        rw [Cursor.peek_of_rest hrest] at hpeek
        exact Option.some.inj hpeek
      by_cases hdelim : t.type = .delim
      · have hnot : ∀ kind ∈ [Combinator.child, .nextSibling, .laterSibling], t.text ≠ kind.sign := by
          intro kind hkind htext
          have hnone := hsign kind hkind
          simp [Value.isDelim, Token.isDelim, hdelim, htext] at hnone
        simp only [hdelim, if_true]
        split
        · next htext => exact absurd htext (hnot .child (by decide))
        · next htext => exact absurd htext (hnot .nextSibling (by decide))
        · next htext => exact absurd htext (hnot .laterSibling (by decide))
        · next htext =>
            refine .look ?_
            have hqualifier : isQualifier c 0 = true := by
              rw [isQualifier_eq, List.drop_zero, hrest]
              exact hbar (by simp [Value.isDelim, Token.isDelim, hdelim, htext])
            simp only [hqualifier, Bool.and_self, if_true]
            exact .pure hrest
        · exact .pure hrest
      · simp only [hdelim, if_false]
        exact .pure hrest

theorem reads_combinator_sign (afterBlank : Bool) {kind : Combinator} {t : Token} {vs : List Value}
    (hkind : kind ∈ [Combinator.child, .nextSibling, .laterSibling]) (ht : t.isDelim kind.sign = true)
    (hrest : c.rest = .token t :: vs) :
    Reads c (combinator afterBlank) (some (kind, [t])) vs := by
  unfold combinator
  refine .look ?_
  have htype : t.type = .delim ∧ t.text = kind.sign := by simpa [Token.isDelim] using ht
  simp only [Cursor.peekToken_of_rest hrest, htype.1, if_true]
  simp only [List.mem_cons, List.not_mem_nil, or_false] at hkind
  rcases hkind with rfl | rfl | rfl
  all_goals
    rw [htype.2]
    exact .next hrest fun d hd => .pure hd

theorem reads_combinator_column (afterBlank : Bool) {t u : Token} {vs : List Value}
    (ht : t.isDelim "|" = true) (hu : u.isDelim "|" = true)
    (hrest : c.rest = .token t :: .token u :: vs) :
    Reads c (combinator afterBlank) (some (.column, [t, u])) vs := by
  unfold combinator
  refine .look ?_
  have htype : t.type = .delim ∧ t.text = "|" := by simpa [Token.isDelim] using ht
  have hqualifier : isQualifier c 0 = false := by
    rw [isQualifier_eq, List.drop_zero, hrest]
    change ((Value.token t).isDelim "|" && (Value.token u).isName) = false
    rw [isName_of_isDelim (v := .token u) hu (by decide), Bool.and_false]
  simp only [Cursor.peekToken_of_rest hrest, htype.1, htype.2, if_true]
  refine .look ?_
  simp only [hqualifier, Bool.and_false, Bool.false_eq_true, if_false]
  exact .next hrest fun d hd => .consumeDelim hd hu fun e he => .pure he

theorem endsCompound_of_combinator {kind : Combinator} {tokens : List Token} {us : List Value}
    (h : kind.WrittenAs tokens us) (rest : List Value) :
    EndsCompound (us ++ rest) := by
  have hblanks : ∀ {blanks : List Value} {vs : List Value}, AllBlank blanks → EndsCompound vs →
      EndsCompound (blanks ++ vs) := by
    intro blanks vs hblanks hvs
    cases blanks with
    | nil => exact hvs
    | cons v blanks => exact .inl (hblanks v List.mem_cons_self)
  cases h with
  | blank hblank hne =>
      cases us with
      | nil => exact absurd rfl hne
      | cons v blanks => exact .inl (hblank v List.mem_cons_self)
  | sign hkind ht hbefore _ =>
      rw [List.append_assoc]
      exact hblanks hbefore (.inr (.inl ⟨kind, hkind, ht⟩))
  | column ht hu hbefore _ =>
      rw [List.append_assoc]
      exact hblanks hbefore (.inr (.inr ⟨ht, hu⟩))

theorem endsCompound_of_parts {ps : List SelectorPart} {us : List Value}
    (hps : WrittenAll SelectorPart.WrittenAs ps us) :
    EndsCompound us := by
  cases hps with
  | nil => trivial
  | cons hp _ =>
      cases hp with
      | intro hkind _ =>
          rw [List.append_assoc]
          exact endsCompound_of_combinator hkind _

/-- The combinator before a compound is read, with the blanks around it. -/
theorem reads_combinator {kind : Combinator} {tokens : List Token} {us vs : List Value}
    {g : Option (Combinator × List Token) → Bool → Scan β} {b : β} {rest : List Value}
    (h : kind.WrittenAs tokens us) (hvs : LeadsCompound vs) (hrest : c.rest = us ++ vs)
    (hg : ∀ d o afterBlank blanks, o.getD (.descendant, []) = (kind, tokens) →
      (o.isNone = true → afterBlank = true) → d.rest = blanks ++ vs → AllBlank blanks →
      Reads d (g o afterBlank) b rest) :
    Reads c (look (·.check 0 .whitespace) >>= fun afterBlank => skipWhitespace >>= fun _ =>
      combinator afterBlank >>= fun o => g o afterBlank) b rest := by
  refine .look ?_
  cases h with
  | blank hblanks hne =>
      have hseen : c.check 0 .whitespace = true := by
        rw [check_zero_eq, hrest]
        cases us with
        | nil => exact absurd rfl hne
        | cons v blanks => exact hblanks v List.mem_cons_self
      rw [hseen]
      refine .skipWhitespace hrest hblanks hvs.blank fun d hd => ?_
      cases vs with
      | nil => exact absurd rfl hvs.ne_nil
      | cons v vs =>
          have hnone := reads_combinator_none hd (hvs.sign v rfl) (hvs.bar v rfl)
          exact .bind hnone fun e he => hg e none true [] rfl (fun _ => rfl) he .nil
  | @sign _ t before behind hkind ht hbefore hbehind =>
      rw [List.append_assoc] at hrest
      refine .skipWhitespace hrest hbefore ?_ fun d hd => ?_
      · rintro _ ⟨rfl⟩
        exact isWhitespace_of_isDelim (v := .token t) ht
      · refine .bind (reads_combinator_sign _ hkind ht hd) fun e he => ?_
        exact hg e _ _ behind rfl nofun he hbehind
  | @column t u before behind ht hu hbefore hbehind =>
      rw [List.append_assoc] at hrest
      refine .skipWhitespace hrest hbefore ?_ fun d hd => ?_
      · rintro _ ⟨rfl⟩
        exact isWhitespace_of_isDelim (v := .token t) ht
      · refine .bind (reads_combinator_column _ ht hu hd) fun e he => ?_
        exact hg e _ _ behind rfl nofun he hbehind

theorem atEnd_eq (c : Cursor) :
    c.atEnd = c.rest.isEmpty := by
  rw [Cursor.atEnd, Cursor.peek_eq_getElem?, ← List.head?_eq_getElem?]
  cases c.rest <;> rfl

theorem reads_parts {ps : List SelectorPart} {us : List Value}
    (hps : WrittenAll SelectorPart.WrittenAs ps us) (n : Nat) (hn : ps.length ≤ n)
    (hrest : c.rest = us) :
    Reads c (parts n) ps [] := by
  induction hps generalizing c n with
  | nil =>
      cases n with
      | zero => exact .pure hrest
      | succ n =>
          rw [parts]
          refine .look ?_
          simp only [atEnd_eq, hrest, List.isEmpty_nil, if_true]
          exact .pure hrest
  | @cons p ps us vs hp hps ih =>
      cases n with
      | zero => exact absurd hn (Nat.not_succ_le_zero _)
      | succ n =>
          cases hp with
          | @intro us₁ us₂ hkind hk =>
              rw [List.append_assoc] at hrest
              have hleads := leads_of_compound hk vs
              have hnonempty : (us₂ ++ vs).isEmpty = false :=
                Bool.eq_false_iff.mpr fun h => hleads.ne_nil (List.isEmpty_iff.mp h)
              have hstart : c.atEnd = false := by
                rw [atEnd_eq, hrest]
                refine Bool.eq_false_iff.mpr fun h => hleads.ne_nil ?_
                exact (List.append_eq_nil_iff.mp (List.isEmpty_iff.mp h)).2
              rw [parts]
              refine .look ?_
              simp only [hstart, Bool.false_eq_true, if_false]
              refine reads_combinator hkind hleads hrest ?_
              intro d o afterBlank blanks ho hblank hd hblanks
              have hcond : ¬ (o.isNone = true ∧ ¬ afterBlank = true) :=
                fun h => h.2 (hblank h.1)
              simp only [hcond, if_false, ho]
              refine .skipWhitespace hd hblanks hleads.blank fun d hd => .look ?_
              simp only [atEnd_eq, hd, hnonempty, Bool.false_eq_true, if_false]
              refine .bind (reads_compound hk hd (endsCompound_of_parts hps)) fun d hd => ?_
              exact .bind (ih n (Nat.le_of_succ_le_succ hn) hd) fun e he => .pure he

theorem reads_complexSelector {s : ComplexSelector} {us : List Value} (hs : s.WrittenAs us)
    (hrest : c.rest = us) :
    Reads c complexSelector s [] := by
  unfold complexSelector
  cases hs with
  | @intro first others us vs hk hps =>
      refine .bind (reads_compound hk hrest (endsCompound_of_parts hps)) fun d hd => .look ?_
      have hlength : others.length ≤ d.items.length := by
        refine length_le_items hps (fun p ws hp => ?_) (hd.trans (List.append_nil vs).symm)
        cases hp with
        | intro _ hk =>
            intro hnil
            exact (leads_of_compound hk []).ne_nil (by rw [(List.append_eq_nil_iff.mp hnil).2]; rfl)
      exact .bind (reads_parts hps _ hlength hd) fun e he => .pure he

end Scan
end Cascade
