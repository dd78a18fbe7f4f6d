import Cascade.Proofs.Composition
import Cascade.Proofs.Kinship
import Cascade.Proofs.PairedReading

/-!
# Bodies without a semicolon at the end

The body of a mixin is a sequence of declarations, inclusions and at-rules without blocks,
and its last statement is a declaration that no semicolon ends.  A body that it includes
may be so too.

**Method.**  Two readers are before the statements of the body, with items of their own
behind it (`BothBefore`).  One lemma for each kind of statement says that both read it alike
and are then before the statements behind it.  Only the last one is read up to the items of
their own: the first reader stops at the end of the body, and the second one at a semicolon
(`BehindBody`).  What follows from a statement is put together with what follows from the
ones behind it in one place (`bodyRead_of_step`).

**Results.**
* `bodyRead_of_openBody`: the body is read alike with and without a semicolon at its end, and its
  statements take nothing from behind it.
-/

namespace Cascade

/-! ## Statements of a body -/

/-- A declaration without a semicolon. -/
inductive OpenDeclaration (s : Scopes) : List Value → Prop
  | intro {property colon : Token} {blanks vs : List Value} :
      property.type = .ident → (∀ v ∈ blanks, v.isWhitespace = true) → colon.type = .colon →
      ReadSingly s Value.endsDeclaration vs →
      OpenDeclaration s (.token property :: (blanks ++ .token colon :: vs))

/-- The value may stand between an inclusion's keyword and its semicolon. -/
def Value.isTarget : Value → Bool
  | .token t => t.type == .whitespace || t.type == .comma || t.type == .ident
  | .call _ _ _ _ => true
  | _ => false

/-- The mixins that the values name, each with the instance for its arguments. -/
inductive Targets (s : Scopes) : List Value → List (String × List Value) → Prop
  | nil : Targets s [] []
  | skip {t : Token} {vs : List Value} {found : List (String × List Value)} :
      t.type = .whitespace ∨ t.type = .comma → Targets s vs found → Targets s (.token t :: vs) found
  | name {t : Token} {m : Mixin} {body vs : List Value} {found : List (String × List Value)} :
      t.type = .ident → s.findMixin? t.text = some m → m.instantiate t.text [] = .ok body →
      Targets s vs found → Targets s (.token t :: vs) ((t.text, body) :: found)
  | call {t : Token} {args : List (List Value)} {commas : List Token} {closer : Option Token}
      {m : Mixin} {body vs : List Value} {found : List (String × List Value)} :
      s.findMixin? t.text = some m → m.instantiate t.text args = .ok body → Targets s vs found →
      Targets s (.call t args commas closer :: vs) ((t.text, body) :: found)

/-- The items behind an inclusion of the instances: the first one is in front. -/
def expansion : List (String × List Value) → List Item → List Item
  | [], l => l
  | (m, body) :: found, l => body.map .value ++ .marker m :: expansion found l

theorem expansion_append (found found' : List (String × List Value)) (l : List Item) :
    expansion (found ++ found') l = expansion found (expansion found' l) := by
  induction found with
  | nil => rfl
  | cons a found ih =>
      obtain ⟨m, body⟩ := a
      rw [List.cons_append, expansion, expansion, ih]

/-- What an at-rule of the name does is to be read up to its end: it is no inclusion, and no definition
and no use of an alias. -/
def PlainRule (s : Scopes) (name : Token) (vs : List Value) : Prop :=
  Text.foldCase name.text ≠ "mixin" ∧ Text.foldCase name.text ≠ "include" ∧
    (Text.foldCase name.text = "media" ∨
      (∀ v ∈ (vs.dropWhile Value.isWhitespace).head?, v.isDelim "=" = false) ∧
        s.findAlias? name.text = none)

/-- Statements of a body, the last one a declaration without a semicolon.  The body of a mixin that is
included on the way has the same statements, and the end of it may end a declaration. -/
inductive OpenBody (s : Scopes) : List Item → Prop
  | last {vs : List Value} : OpenDeclaration s vs → OpenBody s (vs.map .value)
  | blank {t : Token} {l : List Item} :
      t.type = .whitespace ∨ t.type = .semicolon → OpenBody s l → OpenBody s (.value (.token t) :: l)
  | bodyEnd {m : String} {l : List Item} : OpenBody s l → OpenBody s (.marker m :: l)
  | closed {vs : List Value} {semicolon : Token} {l : List Item} :
      OpenDeclaration s vs → semicolon.type = .semicolon → OpenBody s l →
      OpenBody s (vs.map .value ++ .value (.token semicolon) :: l)
  | declaration {vs : List Value} {m : String} {l : List Item} :
      OpenDeclaration s vs → OpenBody s l → OpenBody s (vs.map .value ++ .marker m :: l)
  | inclusion {keyword semicolon : Token} {vs : List Value} {l : List Item} :
      keyword.type = .atKeyword → Text.foldCase keyword.text = "include" →
      (∀ v ∈ vs, v.isTarget = true) → semicolon.type = .semicolon →
      (∀ found, Targets s vs found → OpenBody s (expansion found l)) →
      OpenBody s (.value (.token keyword) :: (vs.map .value ++ .value (.token semicolon) :: l))
  | atRule {name semicolon : Token} {vs : List Value} {l : List Item} :
      name.type = .atKeyword → PlainRule s name vs → ReadSingly s Value.endsAtRule vs →
      semicolon.type = .semicolon → OpenBody s l →
      OpenBody s (.value (.token name) :: (vs.map .value ++ .value (.token semicolon) :: l))

section Shape

variable {scopes : Scopes} {l : List Item} {vs : List Value}

theorem OpenDeclaration.exists_property (h : OpenDeclaration scopes vs) :
    ∃ property rest, vs = .token property :: rest ∧ property.type = .ident := by
  cases h with
  | intro hproperty _ _ _ => exact ⟨_, _, rfl, hproperty⟩

/-- The first value of the body that is not whitespace starts a statement or is a semicolon. -/
theorem OpenBody.exists_visible (h : OpenBody scopes l) :
    ∃ v ws, (l.filterMap Item.value?).dropWhile Value.isWhitespace = v :: ws ∧
      v.isDefinitionSign = false := by
  have hfront {t : Token} (ht : t.type = .ident ∨ t.type = .semicolon ∨ t.type = .atKeyword)
      (l : List Item) :
      ∃ v ws, ((Item.value (.token t) :: l).filterMap Item.value?).dropWhile Value.isWhitespace =
        v :: ws ∧ v.isDefinitionSign = false := by
    refine ⟨.token t, l.filterMap Item.value?, ?_, ?_⟩
    · rw [List.filterMap_cons]
      rcases ht with ht | ht | ht <;> simp [Item.value?, Value.isWhitespace, Value.hasType, ht]
    · rcases ht with ht | ht | ht <;>
        simp [Value.isDefinitionSign, Value.hasType, Value.isDelim, Token.isDelim, ht]
  induction h with
  | last hvs =>
      obtain ⟨property, rest, rfl, hproperty⟩ := hvs.exists_property
      exact hfront (.inl hproperty) _
  | @blank t l ht _ ih =>
      rcases ht with ht | ht
      · simpa [Item.value?, Value.isWhitespace, Value.hasType, ht] using ih
      · exact hfront (.inr (.inl ht)) _
  | bodyEnd _ ih => simpa [Item.value?, List.filterMap_cons] using ih
  | closed hvs _ _ _ | declaration hvs _ _ =>
      obtain ⟨property, rest, rfl, hproperty⟩ := hvs.exists_property
      exact hfront (.inl hproperty) _
  | inclusion hkeyword _ _ _ _ _ => exact hfront (.inr (.inr hkeyword)) _
  | atRule hname _ _ _ _ _ => exact hfront (.inr (.inr hname)) _

theorem OpenBody.silent (h : OpenBody scopes l) (items : List Item) :
    Item.Silent (l ++ items) := by
  obtain ⟨v, ws, hl, hv⟩ := h.exists_visible
  have hne : (l.filterMap Item.value?).dropWhile Value.isWhitespace ≠ [] := by simp [hl]
  intro w hw
  rw [List.filterMap_append, List.dropWhile_append, if_neg (by simpa using hne), hl] at hw
  obtain rfl : v = w := by simpa using hw
  exact hv

end Shape

namespace Read

variable {α β : Type} {scopes : Scopes} {us us' l : List Item} {r s : Reader} {v : Value}

/-! ## Declarations -/

section Declarations

variable {m : String} {rest : List Item} {vs : List Value} {semicolon : Token} {n : Nat}
  {R : Reader → Reader → Prop}

/-- Behind a declaration at the end of the body: the first reader is before the end, and the second one
agrees with it up to the place of the value read last. -/
def BehindBody (m : String) (rest : List Item) (t u : Reader) : Prop :=
  t.cursor.items = .marker m :: rest ∧ ∃ p, u = t.lastAt p

/-- At a semicolon a declaration ends behind it. -/
theorem declarationEnd_semicolon (hsemicolon : semicolon.type = .semicolon) (read : List Value)
    (hitems : r.cursor.items = .value (.token semicolon) :: l) :
    declarationEnd read r = .ok (some read.reverse) (Behind r l semicolon.position) := by
  unfold declarationEnd
  rw [bind_ok (peek_run _ r), Cursor.peek_of_blank Item.blank_nil hitems]
  dsimp only
  rw [bind_ok (peek_run _ r), Cursor.atExpansionEnd, hitems]
  simp only [Value.hasType, hsemicolon]
  exact bind_ok (next_of_items hitems)

/-- At the end of a body a declaration ends before it. -/
theorem declarationEnd_marker (read : List Value) (hitems : r.cursor.items = .marker m :: l) :
    declarationEnd read r = .ok (some read.reverse) r := by
  unfold declarationEnd
  rw [bind_ok (peek_run _ r)]
  cases r.cursor.peek 0 with
  | none => rfl
  | some v =>
      dsimp only
      rw [bind_ok (peek_run _ r), Cursor.atExpansionEnd, hitems]
      rfl

theorem matched_declaration
    (hend : ∀ (read : List Value) {r s : Reader}, BothBefore scopes us us' l r s →
      ∃ b t u, declarationEnd read r = .ok (some b) t ∧ declarationEnd read s = .ok (some b) u ∧ R t u)
    (hvs : OpenDeclaration scopes vs) (h : BothBefore scopes us us' (vs.map .value ++ l) r s) :
    Matched (fun _ => R) (declaration n r) (declaration n s) := by
  cases hvs with
  | @intro property colon blanks vs hproperty hblanks hcolon hvs =>
      have hvisible : (Value.token colon).isWhitespace = false := by
        simp [Value.isWhitespace, Value.hasType, hcolon]
      rw [List.map_cons, List.map_append, List.map_cons, List.cons_append, List.append_assoc,
        List.cons_append] at h
      unfold declaration
      refine (h.matched_consume _ hproperty).bind fun name t u hboth => ?_
      obtain ⟨-, htu⟩ := hboth
      have hskipped := htu.skipped hblanks hvisible
      refine (hskipped.matched_consume _ hcolon).bind fun colon t u hboth => ?_
      obtain ⟨-, htu⟩ := hboth
      refine (matched_collect (R := fun _ => R) goesOn_declarationEnd hend hvs htu).bind
        fun values t u htu => ?_
      cases splitImportant (trimWhitespace values) with
      | ok result => exact .result htu
      | error d => exact .stopped

/-- A statement that is a declaration. -/
theorem matched_declarationStatement
    (hend : ∀ (read : List Value) {r s : Reader}, BothBefore scopes us us' l r s →
      ∃ b t u, declarationEnd read r = .ok (some b) t ∧ declarationEnd read s = .ok (some b) u ∧ R t u)
    (hvs : OpenDeclaration scopes vs) (h : BothBefore scopes us us' (vs.map .value ++ l) r s) :
    ∃ v, r.cursor.peek 0 = some v ∧ s.cursor.peek 0 = some v ∧
      ∀ n, Matched (fun _ => R) (styleStatement n v r) (styleStatement n v s) := by
  have hdeclaration (n : Nat) := matched_declaration (n := n) hend hvs h
  obtain ⟨property, rest, rfl, hproperty⟩ := hvs.exists_property
  refine ⟨.token property, h.peek_left, h.peek_right, fun n => ?_⟩
  cases n with
  | zero => exact .stopped
  | succ n =>
      rw [styleStatement_of_ident h.peek_left hproperty, styleStatement_of_ident h.peek_right hproperty]
      exact (hdeclaration n).bind fun d t u htu => .result htu

end Declarations

/-! ## Inclusions -/

section Inclusions

variable {vs : List Value} {found : List (String × List Value)} {semicolon keyword : Token} {n : Nat}

/-- The body of another mixin in front of both readers. -/
theorem BothBefore.including (h : BothBefore scopes us us' l r s) (m : String) (body : List Value) :
    BothBefore scopes us us' (body.map .value ++ .marker m :: l) (r.including m body)
      (s.including m body) where
  scopes := h.scopes
  items := by simp [Reader.including, Cursor.spliceExpansion, h.items]
  other := by
    rw [h.other]
    simp [Reader.including, Cursor.spliceExpansion, Cursor.depth, Reader.withItems]

theorem matched_expand (h : BothBefore scopes us us' l r s) (found : List (String × List Value)) :
    Matched (fun _ => BothBefore scopes us us' (expansion found.reverse l)) (expand found r)
      (expand found s) := by
  induction found generalizing l r s with
  | nil => exact .result h
  | cons a found ih =>
      obtain ⟨m, body⟩ := a
      have hbehind := ih (h.including m body)
      rw [List.reverse_cons, expansion_append]
      exact hbehind

section Targets

variable {t : Token} {read : List (String × List Value)}

/-- Whitespace before a target is read with the whitespace behind it. -/
theorem targets_blank (ht : t.type = .whitespace) (hitems : r.cursor.items = .value (.token t) :: l) :
    targets (n + 1) read r = targets (n + 1) read (Behind r l t.position) := by
  have hblank : (Value.token t).isWhitespace = true := by
    simp [Value.isWhitespace, Value.hasType, ht]
  have hskip (k : Unit → Read (List (String × List Value))) :
      (skipWhitespace >>= k) r = (skipWhitespace >>= k) (Behind r l t.position) :=
    congrArg (k ()) (skipped_blank hblank hitems)
  rw [targets, hskip]

/-- Behind the whitespace the targets go on as the value in front asks. -/
theorem targets_visible (hv : v.isWhitespace = false) (hitems : r.cursor.items = .value v :: l) :
    targets (n + 1) read r =
      (match v with
      | .token t =>
        if t.type = .semicolon then do
          let _ ← next
          return read
        else if t.type = .comma then do
          let _ ← next
          targets n read
        else if t.type = .ident then do
          let _ ← next
          let body ← instantiate t []
          targets n ((t.text, body) :: read)
        else if t.type = .function then do
          let c ← call n
          let body ← instantiate c.name c.arguments
          targets n ((c.name.text, body) :: read)
        else
          failAt 0 .includeName
      | .call name args _ _ => do
        let _ ← next
        let body ← instantiate name args
        targets n ((name.text, body) :: read)
      | _ => failAt 0 .includeName : Read _) r := by
  have hskip (k : Unit → Read (List (String × List Value))) :
      (skipWhitespace >>= k) r = k () r :=
    congrArg (k ()) (skipped_visible hv hitems)
  rw [targets, hskip, bind_ok (peek_run _ r), Cursor.peek_of_blank Item.blank_nil hitems]
  cases v <;> rfl

theorem targets_semicolon (ht : t.type = .semicolon)
    (hitems : r.cursor.items = .value (.token t) :: l) :
    targets (n + 1) read r = .ok read (Behind r l t.position) := by
  rw [targets_visible (by simp [Value.isWhitespace, Value.hasType, ht]) hitems]
  simp only [ht, if_true]
  exact bind_ok (next_of_items hitems)

theorem targets_comma (ht : t.type = .comma) (hitems : r.cursor.items = .value (.token t) :: l) :
    targets (n + 1) read r = targets n read (Behind r l t.position) := by
  rw [targets_visible (by simp [Value.isWhitespace, Value.hasType, ht]) hitems]
  simp only [ht, reduceCtorEq, if_false, if_true]
  exact bind_ok (next_of_items hitems)

theorem targets_name (ht : t.type = .ident) (hitems : r.cursor.items = .value (.token t) :: l) :
    targets (n + 1) read r = (do
      let body ← instantiate t []
      targets n ((t.text, body) :: read) : Read _) (Behind r l t.position) := by
  rw [targets_visible (by simp [Value.isWhitespace, Value.hasType, ht]) hitems]
  simp only [ht, reduceCtorEq, if_false, if_true]
  exact bind_ok (next_of_items hitems)

theorem targets_call {args : List (List Value)} {commas : List Token} {closer : Option Token}
    (hitems : r.cursor.items = .value (.call t args commas closer) :: l) :
    targets (n + 1) read r = (do
      let body ← instantiate t args
      targets n ((t.text, body) :: read) : Read _) (Behind r l t.position) := by
  rw [targets_visible rfl hitems]
  exact bind_ok (next_of_items hitems)

end Targets

/-- What may stand between the keyword and the semicolon of an inclusion. -/
theorem Value.isTarget_cases (hv : v.isTarget = true) :
    (∃ t : Token, v = .token t ∧ (t.type = .whitespace ∨ t.type = .comma ∨ t.type = .ident)) ∨
      ∃ name args commas closer, v = .call name args commas closer := by
  cases v with
  | token t =>
      have ht : (t.type = .whitespace ∨ t.type = .comma) ∨ t.type = .ident := by
        simpa [Value.isTarget] using hv
      exact .inl ⟨t, rfl, or_assoc.mp ht⟩
  | call name args commas closer => exact .inr ⟨_, _, _, _, rfl⟩
  | block opener contents closer => cases hv
  | reference dollar name => cases hv

/-- An instance is made by both readers, or both stop. -/
theorem matched_instantiate (h : BothBefore scopes us us' l r s) (target : Token)
    (args : List (List Value)) :
    Matched (fun body t u => BothBefore scopes us us' l t u ∧
        ∃ m, scopes.findMixin? target.text = some m ∧ m.instantiate target.text args = .ok body)
      (instantiate target args r) (instantiate target args s) := by
  unfold instantiate
  refine .look ?_
  rw [h.scopes, h.other_scopes]
  cases hmixin : scopes.findMixin? target.text with
  | none => exact .stopped
  | some m =>
      dsimp only
      cases hbody : m.instantiate target.text args with
      | ok body => exact .result ⟨h, m, rfl, hbody⟩
      | error cause => exact .stopped

/-- Both readers read the targets of an inclusion up to its semicolon, and find the instances of the
mixins that these name. -/
theorem matched_targets (htargets : ∀ v ∈ vs, v.isTarget = true)
    (hsemicolon : semicolon.type = .semicolon)
    (h : BothBefore scopes us us' (vs.map .value ++ .value (.token semicolon) :: l) r s)
    (read : List (String × List Value)) :
    Matched (fun all t u => BothBefore scopes us us' l t u ∧
        ∃ found, Targets scopes vs found ∧ all = found.reverse ++ read)
      (targets n read r) (targets n read s) := by
  induction vs generalizing n r s read with
  | nil =>
      cases n with
      | zero => exact .stopped
      | succ n =>
          rw [targets_semicolon hsemicolon h.items, targets_semicolon hsemicolon h.right]
          exact .result ⟨h.behind _, [], .nil, rfl⟩
  | cons v vs ih =>
      obtain ⟨hv, hvs⟩ := List.forall_mem_cons.mp htargets
      rw [List.map_cons, List.cons_append] at h
      cases n with
      | zero => exact .stopped
      | succ n =>
          rcases Value.isTarget_cases hv with ⟨t, rfl, ht | ht | ht⟩ | ⟨name, args, _, _, rfl⟩
          · rw [targets_blank ht h.items, targets_blank ht h.right]
            refine (ih hvs (h.behind _) read).mono fun all t u hboth => ?_
            obtain ⟨htu, found, hfound, hall⟩ := hboth
            exact ⟨htu, found, .skip (.inl ht) hfound, hall⟩
          · rw [targets_comma ht h.items, targets_comma ht h.right]
            refine (ih hvs (h.behind _) read).mono fun all t u hboth => ?_
            obtain ⟨htu, found, hfound, hall⟩ := hboth
            exact ⟨htu, found, .skip (.inr ht) hfound, hall⟩
          · rw [targets_name ht h.items, targets_name ht h.right]
            refine (matched_instantiate (h.behind _) t []).bind fun body _ _ hboth => ?_
            obtain ⟨htu, m, hmixin, hbody⟩ := hboth
            refine (ih hvs htu _).mono fun all t u hboth => ?_
            obtain ⟨htu, found, hfound, hall⟩ := hboth
            exact ⟨htu, _, .name ht hmixin hbody hfound, by simpa using hall⟩
          · rw [targets_call h.items, targets_call h.right]
            refine (matched_instantiate (h.behind _) name args).bind fun body _ _ hboth => ?_
            obtain ⟨htu, m, hmixin, hbody⟩ := hboth
            refine (ih hvs htu _).mono fun all t u hboth => ?_
            obtain ⟨htu, found, hfound, hall⟩ := hboth
            exact ⟨htu, _, .call hmixin hbody hfound, by simpa using hall⟩

/-- Behind an inclusion both readers have the same instances in front. -/
theorem matched_includeMixins (htargets : ∀ v ∈ vs, v.isTarget = true)
    (hsemicolon : semicolon.type = .semicolon)
    (h : BothBefore scopes us us' (vs.map .value ++ .value (.token semicolon) :: l) r s) :
    Matched (fun _ t u => ∃ found, Targets scopes vs found ∧
        BothBefore scopes us us' (expansion found l) t u)
      (includeMixins n keyword r) (includeMixins n keyword s) := by
  unfold includeMixins
  refine (matched_targets htargets hsemicolon h []).bind fun all t u hboth => ?_
  obtain ⟨htu, found, hfound, hall⟩ := hboth
  obtain rfl : all = found.reverse := by simpa using hall
  cases found.reverse.getLast? with
  | none => exact .stopped
  | some first =>
      have hexpand := matched_expand htu found.reverse
      rw [List.reverse_reverse] at hexpand
      have hlimits : u.limits = t.limits := by rw [htu.other]; rfl
      have hdepth : u.cursor.depth = t.cursor.depth := by rw [htu.other]; rfl
      change Matched _ (bounded keyword first.1 found.reverse.length (expand found.reverse) t)
        (bounded keyword first.1 found.reverse.length (expand found.reverse) u)
      rw [bounded_run, bounded_run, hlimits, hdepth]
      split
      · exact .stopped
      · exact hexpand.mono fun _ t u htu => ⟨found, hfound, htu⟩

theorem atRule_of_include (hkeyword : keyword.type = .atKeyword)
    (hinclude : Text.foldCase keyword.text = "include")
    (hitems : r.cursor.items = .value (.token keyword) :: l) :
    atRule n r = (do includeMixins n keyword; return none : Read (Option AtRule))
      (Behind r l keyword.position) := by
  unfold atRule
  rw [bind_ok (consume_of_items _ hitems hkeyword)]
  simp only [hinclude, String.reduceEq, if_false, if_true]

/-- An inclusion is read alike, and the readers are before the same instances behind it. -/
theorem matched_inclusion (hkeyword : keyword.type = .atKeyword)
    (hinclude : Text.foldCase keyword.text = "include") (htargets : ∀ v ∈ vs, v.isTarget = true)
    (hsemicolon : semicolon.type = .semicolon)
    (h : BothBefore scopes us us'
      (.value (.token keyword) :: (vs.map .value ++ .value (.token semicolon) :: l)) r s) :
    Matched (fun _ t u => ∃ found, Targets scopes vs found ∧
        BothBefore scopes us us' (expansion found l) t u)
      (styleStatement n (.token keyword) r) (styleStatement n (.token keyword) s) := by
  cases n with
  | zero => exact .stopped
  | succ n =>
      rw [styleStatement, if_neg (by simp [hkeyword]), if_pos hkeyword,
        bind_of_run (atRule_of_include hkeyword hinclude h.items),
        bind_of_run (atRule_of_include hkeyword hinclude h.right)]
      simp only [bind_assoc, pure_bind]
      exact (matched_includeMixins htargets hsemicolon (h.behind _)).bind fun _ t u htu => .result htu

end Inclusions

/-! ## At-rules -/

section AtRules

variable {name semicolon : Token} {vs : List Value} {n : Nat}

/-- At a semicolon an at-rule ends behind it, without a block. -/
theorem atRuleEnd_semicolon (hsemicolon : semicolon.type = .semicolon) (read : List Value)
    (hitems : r.cursor.items = .value (.token semicolon) :: l) :
    atRuleEnd name read r =
      .ok (some ⟨name, trimWhitespace read.reverse, none⟩) (Behind r l semicolon.position) := by
  unfold atRuleEnd
  rw [bind_ok (peek_run _ r), Cursor.peek_of_blank Item.blank_nil hitems]
  simp only [hsemicolon, if_true]
  exact bind_ok (next_of_items hitems)

/-- Behind the name the rest of the rule is read. -/
theorem aliasOrRule_of_plain (hplain : PlainRule scopes name vs)
    (hsemicolon : semicolon.type = .semicolon) (hscopes : r.scopes = scopes)
    (hitems : r.cursor.items = vs.map .value ++ .value (.token semicolon) :: l) :
    aliasOrRule n name r = (do return some (← collect n (atRuleEnd name) []) : Read _) r := by
  unfold aliasOrRule
  obtain ⟨-, -, hmedia | ⟨hsign, halias⟩⟩ := hplain
  · simp only [hmedia, ne_eq, not_true_eq_false, if_false]
  · have hrest : r.cursor.rest = vs ++ .token semicolon :: l.filterMap Item.value? := by
      simp [Cursor.rest, hitems, List.filterMap_append, Item.value?, List.filterMap_map,
        Function.comp_def]
    have hcheck : r.cursor.checkDelim r.cursor.blankOffset "=" = false := by
      rw [Cursor.checkDelim, Cursor.peek_blankOffset, Cursor.peek_eq_getElem?,
        Cursor.rest_skipWhitespace, hrest, ← List.head?_eq_getElem?, List.dropWhile_append]
      split
      · simp [Value.isWhitespace, Value.hasType, Value.isDelim, Token.isDelim, hsemicolon]
      · next hne =>
          cases hvs : vs.dropWhile Value.isWhitespace with
          | nil => simp [hvs] at hne
          | cons v ws => simpa [hvs] using hsign v (by simp [hvs])
    rw [← hscopes] at halias
    split
    · rw [bind_ok (peek_run _ r), bind_ok (peek_run _ r), hcheck]
      simp only [Bool.false_eq_true, if_false]
      rw [bind_ok (show look (·.scopes) r = .ok r.scopes r from rfl), halias]
    · rfl

/-- An at-rule without a block is read alike, and it ends behind its semicolon. -/
theorem matched_atRule (hname : name.type = .atKeyword) (hplain : PlainRule scopes name vs)
    (hvs : ReadSingly scopes Value.endsAtRule vs) (hsemicolon : semicolon.type = .semicolon)
    (h : BothBefore scopes us us'
      (.value (.token name) :: (vs.map .value ++ .value (.token semicolon) :: l)) r s) :
    Matched (fun _ => BothBefore scopes us us' l) (styleStatement n (.token name) r)
      (styleStatement n (.token name) s) := by
  have hend (read : List Value) {r s : Reader}
      (h : BothBefore scopes us us' (.value (.token semicolon) :: l) r s) :
      ∃ rule t u, atRuleEnd name read r = .ok (some rule) t ∧
        atRuleEnd name read s = .ok (some rule) u ∧ BothBefore scopes us us' l t u ∧ rule.block = none :=
    ⟨_, _, _, atRuleEnd_semicolon hsemicolon read h.items, atRuleEnd_semicolon hsemicolon read h.right,
      h.behind _, rfl⟩
  have hrule (n : Nat) : Matched (fun found t u => BothBefore scopes us us' l t u ∧
      ∀ rule ∈ found, rule.block = none) (atRule n r) (atRule n s) := by
    unfold atRule
    refine (h.matched_consume _ hname).bind fun _ t u hboth => ?_
    obtain ⟨hfound, htu⟩ := hboth
    subst hfound
    simp only [hplain.1, hplain.2.1, if_false]
    rw [aliasOrRule_of_plain hplain hsemicolon htu.scopes (by simpa using htu.items),
      aliasOrRule_of_plain hplain hsemicolon htu.other_scopes (by simpa using htu.right)]
    refine (matched_collect (goesOn_atRuleEnd _) hend hvs htu).bind fun rule t u hboth => ?_
    obtain ⟨htu, hblock⟩ := hboth
    exact .result ⟨htu, by simpa using hblock⟩
  cases n with
  | zero => exact .stopped
  | succ n =>
      rw [styleStatement, if_neg (by simp [hname]), if_pos hname]
      refine (hrule n).bind fun found t u hboth => ?_
      obtain ⟨htu, hblock⟩ := hboth
      cases found with
      | none => exact .result htu
      | some rule =>
          cases n with
          | zero => exact .stopped
          | succ n =>
              dsimp only
              rw [resolveAtRule, hblock rule rfl]
              exact .result htu

end AtRules

/-! ## Statements up to the end of a body -/

/-- Reads a number of statements of a style block. -/
def statements : Nat → Nat → Read Unit
  | 0, _ => return ()
  | k + 1, n => do
    match ← peek (·.peek 0) with
    | none => return ()
    | some v =>
      let _ ← styleStatement n v
      statements k n

/-- With a budget for each, a number of statements is read up to the end of the body, and none of them
takes anything from behind it. -/
def EndsBody (n : Nat) (m : String) (rest : List Item) (r : Reader) : Prop :=
  ∃ k, Lands (fun t => t.cursor.items = .marker m :: rest) (statements k n r) ∧
    ∀ j ≤ k, Lands (fun t => ∃ l, t.cursor.items = l ++ .marker m :: rest) (statements j n r)

/-- The second reader reads a style block as the first one does, and that one reads the body up to its
end. -/
structure BodyRead (m : String) (rest : List Item) (r s : Reader) : Prop where
  entries : ∀ (n : Nat) (read : List Entry),
    Matched (fun _ _ _ => True) (styleEntries n read r) (styleEntries n read s)
  ends : ∀ n, EndsBody n m rest r

/-- The readers read a statement alike, and all that is behind it. -/
def BodyStep (m : String) (rest : List Item) (r s : Reader) : Prop :=
  ∃ v, r.cursor.peek 0 = some v ∧ s.cursor.peek 0 = some v ∧
    ∀ n, Matched (fun _ => BodyRead m rest) (styleStatement n v r) (styleStatement n v s)

section Steps

variable {m : String} {rest : List Item}

theorem statements_succ (hpeek : r.cursor.peek 0 = some v) (k n : Nat) :
    statements (k + 1) n r = (do let _ ← styleStatement n v; statements k n : Read Unit) r := by
  rw [statements, bind_ok (peek_run _ r), hpeek]

/-- What follows from a statement and from the ones behind it. -/
theorem bodyRead_of_step (h : BodyStep m rest r s) (hin : r.cursor.items = l ++ .marker m :: rest) :
    BodyRead m rest r s := by
  obtain ⟨v, hleft, hright, hstep⟩ := h
  constructor
  · intro n read
    cases n with
    | zero => exact .stopped
    | succ n =>
        rw [styleEntries]
        refine .peek ?_
        simp only [hleft, hright]
        refine (hstep n).bind fun found t u htu => ?_
        cases found with
        | some entry => exact htu.entries n _
        | none => exact htu.entries n _
  · intro n
    have hnow : Lands (fun t => ∃ l, t.cursor.items = l ++ .marker m :: rest) (statements 0 n r) :=
      ⟨l, hin⟩
    have hmatched := hstep n
    generalize styleStatement n v s = o at hmatched
    cases hrun : styleStatement n v r with
    | error e t =>
        have hstopped : statements 1 n r = .error e t := by
          rw [statements_succ hleft, bind_error hrun]
        refine ⟨1, by rw [hstopped]; trivial, fun j hj => ?_⟩
        obtain rfl | rfl : j = 0 ∨ j = 1 := by omega
        · exact hnow
        · rw [hstopped]
          trivial
    | ok found t =>
        rw [hrun] at hmatched
        cases hmatched with
        | result htu =>
            obtain ⟨k, hend, hwithin⟩ := htu.ends n
            have hbehind (j : Nat) : statements (j + 1) n r = statements j n t := by
              rw [statements_succ hleft, bind_ok hrun]
            refine ⟨k + 1, by rw [hbehind]; exact hend, fun j hj => ?_⟩
            cases j with
            | zero => exact hnow
            | succ j =>
                rw [hbehind]
                exact hwithin j (by omega)

/-- At the end of the body nothing of it is left. -/
theorem BehindBody.bodyRead (h : BehindBody m rest r s) :
    BodyRead m rest r s := by
  obtain ⟨hitems, p, rfl⟩ := h
  refine ⟨fun n read => matched_styleEntries_lastAt n read r p, fun n => ⟨0, hitems, fun j hj => ?_⟩⟩
  obtain rfl : j = 0 := by omega
  exact ⟨[], hitems⟩

end Steps

/-! ## Open bodies -/

section OpenBodies

variable {m : String} {rest : List Item} {semicolon : Token}

/-- Whitespace and semicolons between statements. -/
theorem matched_blank {t : Token} (ht : t.type = .whitespace ∨ t.type = .semicolon)
    (h : BothBefore scopes us us' (.value (.token t) :: l) r s) (n : Nat) :
    Matched (fun _ => BothBefore scopes us us' l) (styleStatement n (.token t) r)
      (styleStatement n (.token t) s) := by
  cases n with
  | zero => exact .stopped
  | succ n =>
      rw [styleStatement, if_pos ht]
      exact h.matched_next.bind fun _ t u htu => .result htu

theorem BothBefore.dropMarker {k : String} (h : BothBefore scopes us us' (.marker k :: l) r s) :
    BothBefore scopes us us' l
      (r.withCursor { r.cursor with items := l ++ us, expansions := r.cursor.expansions.tail })
      (s.withCursor { s.cursor with items := l ++ us', expansions := s.cursor.expansions.tail }) where
  scopes := h.scopes
  items := rfl
  other := by rw [h.other]; rfl

/-- The end of another body before a statement is passed with the first value of the statement. -/
theorem BodyStep.of_dropMarker {k : String} (h : BothBefore scopes us us' (.marker k :: l) r s)
    (hstep : BodyStep m rest
      (r.withCursor { r.cursor with items := l ++ us, expansions := r.cursor.expansions.tail })
      (s.withCursor { s.cursor with items := l ++ us', expansions := s.cursor.expansions.tail })) :
    BodyStep m rest r s := by
  have hr := Cursor.sameFront_marker h.items
  have hs := Cursor.sameFront_marker h.right
  obtain ⟨v, hleft, hright, hstep⟩ := hstep
  have hleft : r.cursor.peek 0 = some v := (hr.peek 0).symm.trans hleft
  have hright : s.cursor.peek 0 = some v := (hs.peek 0).symm.trans hright
  exact ⟨v, hleft, hright, fun n =>
    .congr (matched_styleStatement hr hleft n) (matched_styleStatement hs hright n) (hstep n)⟩

/-- A body without a semicolon at its end is read alike with one there. -/
theorem bodyStep_of_openBody (hsemicolon : semicolon.type = .semicolon) (hbody : OpenBody scopes l)
    (h : BothBefore scopes (.marker m :: rest) (.value (.token semicolon) :: .marker m :: rest) l r s) :
    BodyStep m rest r s := by
  induction hbody generalizing r s with
  | @last vs hvs =>
      refine matched_declarationStatement (l := []) (fun {read r s} h => ?_) hvs (by simpa using h)
      refine ⟨_, _, _, declarationEnd_marker read h.items,
        declarationEnd_semicolon hsemicolon read h.right, ?_⟩
      refine BehindBody.bodyRead ⟨h.items, semicolon.position, ?_⟩
      rw [h.other, Behind, Reader.lastAt]
      simp [Reader.withItems, h.items]
  | @blank t l ht _ ih =>
      refine ⟨_, h.peek_left, h.peek_right, fun n => ?_⟩
      exact (matched_blank ht h n).mono fun _ t u htu => bodyRead_of_step (ih htu) htu.items
  | bodyEnd _ ih => exact .of_dropMarker h (ih h.dropMarker)
  | @closed vs inner l hvs hinner _ ih =>
      refine matched_declarationStatement (fun {read r s} h => ?_) hvs h
      refine ⟨_, _, _, declarationEnd_semicolon hinner read h.items,
        declarationEnd_semicolon hinner read h.right, ?_⟩
      have hbehind := h.behind inner.position
      exact bodyRead_of_step (ih hbehind) hbehind.items
  | @declaration vs k l hvs _ ih =>
      refine matched_declarationStatement (fun {read r s} h => ?_) hvs h
      refine ⟨_, _, _, declarationEnd_marker read h.items, declarationEnd_marker read h.right, ?_⟩
      exact bodyRead_of_step (.of_dropMarker h (ih h.dropMarker)) h.items
  | inclusion hkeyword hinclude htargets hinner _ ih =>
      refine ⟨_, h.peek_left, h.peek_right, fun n => ?_⟩
      refine (matched_inclusion hkeyword hinclude htargets hinner h).mono ?_
      rintro _ t u ⟨found, hfound, htu⟩
      exact bodyRead_of_step (ih found hfound htu) htu.items
  | atRule hname hplain hvs hinner _ ih =>
      refine ⟨_, h.peek_left, h.peek_right, fun n => ?_⟩
      refine (matched_atRule hname hplain hvs hinner h).mono fun _ t u htu => ?_
      exact bodyRead_of_step (ih htu) htu.items

theorem bodyRead_of_openBody (hsemicolon : semicolon.type = .semicolon) (hbody : OpenBody scopes l)
    (h : BothBefore scopes (.marker m :: rest) (.value (.token semicolon) :: .marker m :: rest) l r s) :
    BodyRead m rest r s :=
  bodyRead_of_step (bodyStep_of_openBody hsemicolon hbody h) h.items

end OpenBodies

end Read

end Cascade
