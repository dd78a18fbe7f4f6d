import Cascade.Compile
import Cascade.Proofs.OpenBodies

/-!
# Where the body of a mixin ends

A declaration at the end of the body of a mixin ends there, with or without a semicolon:
none of its values is taken from behind the inclusion.  So the style block that includes
the mixin is the same in both cases.  At-rules and inclusions do not end there.

**Method.**  A body of declarations, inclusions and at-rules is read alike in both cases
(`Proofs.OpenBodies`).  Other statements may stand before them: those are read in the same
way whatever follows them, if they leave a sentinel in its place unread
(`afterStatements_abreast`).

**Results.**
* `styleEntries_expand_semicolon`: a body that ends with a declaration needs no semicolon.
* `atRule_behind_bodyEnd`: a body that ends with an at-rule does.
-/

namespace Cascade

namespace Reader

/-- The reader in the body of a mixin, with a sentinel behind the front of the body. -/
def probing (r : Reader) (m : String) (front : List Value) : Reader :=
  (r.including m front).withItems (front.map .value ++ [.value (.token sentinel)])

/-- The sentinel is unread, and no end of a body is right before it. -/
def beforeSentinel (r : Reader) : Bool :=
  match r.cursor.items.reverse with
  | [.value (.token t)] => t == sentinel
  | .value (.token t) :: .value _ :: _ => t == sentinel
  | _ => false

variable {r : Reader}

theorem not_lost_of_beforeSentinel (h : r.beforeSentinel = true) :
    ¬ r.Lost := by
  have hlast : r.cursor.items.getLast? = some (.value (.token sentinel)) := by
    rw [List.getLast?_eq_head?_reverse]
    unfold beforeSentinel at h
    split at h
    · next t hitems => rw [hitems, eq_of_beq h]; rfl
    · next t _ _ hitems => rw [hitems, eq_of_beq h]; rfl
    · cases h
  exact fun hlost => hlost hlast

theorem not_cornered_of_beforeSentinel (h : r.beforeSentinel = true) :
    ¬ r.Cornered := by
  rintro ⟨m, lead, hlead, hitems⟩
  have hlead : ∀ v, Item.value v ∉ Item.marker m :: lead := by
    intro v hv
    have hmem := List.mem_filterMap.mpr ⟨_, hv, (rfl : Item.value? (.value v) = some v)⟩
    rw [show (Item.marker m :: lead).filterMap Item.value? = [] from (Item.blank_marker m).mpr hlead]
      at hmem
    cases hmem
  have hreverse : r.cursor.items.reverse =
      .value (.token sentinel) :: (.marker m :: lead).reverse := by
    rw [hitems]
    simp
  unfold beforeSentinel at h
  rw [hreverse] at h
  split at h
  · next hback => simp at hback
  · next v _ hback =>
      refine hlead v (List.mem_reverse.mp ?_)
      rw [(List.cons.inj hback).2]
      exact List.mem_cons_self
  · cases h

end Reader

namespace Read

open Reader (Abreast BothAt Lost Cornered)

variable {α β : Type} {us : List Item} {r s t : Reader} {v : Value} {n : Nat}

/-! ## The statements before the last one -/

/-- One statement of a style block, with the entries read so far in reverse. -/
def styleStep (n : Nat) (read : List Entry) (r : Reader) : Option (List Entry × Reader) :=
  match r.cursor.peek 0 with
  | none => none
  | some v =>
    match styleStatement n v r with
    | .ok found s => some (found.toList ++ read, s)
    | .error _ _ => none

/-- The entries and the reader behind a number of statements, none of which reads the sentinel or ends
with a body right before it. -/
def afterStatements : Nat → Nat → List Entry → Reader → Option (List Entry × Reader)
  | 0, _, read, r => some (read, r)
  | k + 1, n, read, r =>
    match styleStep (n + k) read r with
    | none => none
    | some (read, s) => if s.beforeSentinel then afterStatements k n read s else none

theorem styleEntries_of_step {read read' : List Entry} (h : styleStep n read r = some (read', s)) :
    styleEntries (n + 1) read r = styleEntries n read' s := by
  unfold styleStep at h
  rw [styleEntries, bind_ok (peek_run _ r)]
  cases hpeek : r.cursor.peek 0 with
  | none =>
      rw [hpeek] at h
      cases h
  | some v =>
      rw [hpeek] at h
      dsimp only at h ⊢
      cases hrun : styleStatement n v r with
      | error e u =>
          rw [hrun] at h
          cases h
      | ok found u =>
          rw [hrun] at h
          cases h
          rw [bind_ok hrun]
          cases found with
          | some entry => rfl
          | none => rfl

theorem styleStep_abreast (hus : Item.Silent us) {read read' : List Entry}
    (h : styleStep n read r = some (read', t)) (ht : t.beforeSentinel = true)
    (habreast : Abreast us r s) :
    ∃ u, styleStep n read s = some (read', u) ∧ Abreast us t u := by
  have hplace : ¬ (t.Lost ∨ t.Cornered) :=
    not_or.mpr ⟨Reader.not_lost_of_beforeSentinel ht, Reader.not_cornered_of_beforeSentinel ht⟩
  unfold styleStep at h
  cases hpeek : r.cursor.peek 0 with
  | none =>
      rw [hpeek] at h
      cases h
  | some v =>
      rw [hpeek] at h
      dsimp only at h
      cases hrun : styleStatement n v r with
      | error e u =>
          rw [hrun] at h
          cases h
      | ok found u =>
          rw [hrun] at h
          cases h
          rcases habreast.front with hspent | ⟨w, hfront⟩
          · obtain rfl := hspent.peek v hpeek
            have hlands := lands_styleStatement_sentinel n hspent
            rw [hrun] at hlands
            exact (hplace hlands).elim
          · obtain rfl : w = v := Option.some.inj (hfront.left.symm.trans hpeek)
            have hparallel := parallel_styleStatement hus hfront n
            rw [hrun] at hparallel
            generalize hrun' : styleStatement n w s = o at hparallel
            cases hparallel with
            | lost hlost => exact (hplace hlost).elim
            | @abreast _ _ u habreast =>
                refine ⟨u, ?_, habreast⟩
                rw [styleStep, hfront.right]
                dsimp only
                rw [hrun']

/-- Statements that leave the sentinel unread are read in the same way whatever is in its place. -/
theorem afterStatements_abreast (hus : Item.Silent us) {k : Nat} {read read' : List Entry}
    (h : afterStatements k n read r = some (read', t)) (habreast : Abreast us r s) :
    ∃ u, styleEntries (n + k) read s = styleEntries n read' u ∧ Abreast us t u := by
  induction k generalizing read r s with
  | zero =>
      cases h
      exact ⟨s, rfl, habreast⟩
  | succ k ih =>
      rw [afterStatements] at h
      split at h
      · cases h
      · next read₁ r₁ hstep =>
          split at h
          · next hplace =>
              obtain ⟨s₁, hstep', habreast'⟩ := styleStep_abreast hus hstep hplace habreast
              obtain ⟨u, hentries, hend⟩ := ih h habreast'
              exact ⟨u, (styleEntries_of_step hstep').trans hentries, hend⟩
          · cases h

/-! ## Inclusions -/

/-- The body of a mixin may end with a declaration that has no semicolon.  At its end there are
declarations, inclusions and at-rules without blocks (`OpenBody`).  Before these there may be other
statements, if they are read with a sentinel behind them and leave it unread.  Then a style block goes
on from the inclusion in the same way as with a semicolon at the end of the body, whatever follows the
inclusion.  The statements at the end of the body are read up to its end, and take nothing from behind
it. -/
theorem styleEntries_expand_semicolon {semicolon : Token} (hsemicolon : semicolon.type = .semicolon)
    {m : String} {front last : List Value} {k : Nat} {read read' : List Entry}
    (hfront : afterStatements k n read (r.probing m front) = some (read', t))
    (hend : t.cursor.items = [.value (.token sentinel)]) (hlast : OpenBody t.scopes (last.map .value)) :
    Matched (fun _ _ _ => True)
        ((do expand [(m, front ++ last)]; styleEntries (n + k) read : Read _) r)
        ((do expand [(m, front ++ last ++ [.token semicolon])]; styleEntries (n + k) read : Read _) r) ∧
      ∃ u : Reader,
        (do expand [(m, front ++ last)]; styleEntries (n + k) read : Read _) r =
          styleEntries n read' u ∧
        u.cursor.items = last.map .value ++ .marker m :: r.cursor.items ∧
        ∀ i, EndsBody i m r.cursor.items u := by
  have habreast (items : List Item) :
      Abreast (last.map .value ++ items) (r.probing m front)
        ((r.probing m front).withItems (front.map .value ++ (last.map .value ++ items))) :=
    ⟨front.map .value, rfl, rfl⟩
  have hbehind {items : List Item} {u : Reader} (h : Abreast (last.map .value ++ items) t u) :
      u = t.withItems (last.map .value ++ items) := by
    obtain ⟨l, hl, rfl⟩ := h
    rw [hend] at hl
    obtain rfl : l = [] := by simpa using hl
    rfl
  obtain ⟨u, hleft, hu⟩ := afterStatements_abreast (hlast.silent (.marker m :: r.cursor.items)) hfront
    (habreast _)
  obtain ⟨w, hright, hw⟩ := afterStatements_abreast
    (hlast.silent (.value (.token semicolon) :: .marker m :: r.cursor.items)) hfront (habreast _)
  have hpair : BothBefore t.scopes (.marker m :: r.cursor.items)
      (.value (.token semicolon) :: .marker m :: r.cursor.items) (last.map .value) u w :=
    ⟨by rw [hbehind hu]; rfl, by rw [hbehind hu]; rfl, by rw [hbehind hw, hbehind hu]; rfl⟩
  have hread := bodyRead_of_openBody hsemicolon hlast hpair
  have hbody (vs : List Value) : r.including m (front ++ vs) =
      (r.probing m front).withItems
        (front.map .value ++ (vs.map .value ++ .marker m :: r.cursor.items)) := by
    simp [Reader.including, Reader.probing, Reader.withItems, Cursor.spliceExpansion]
  have hleft : (do expand [(m, front ++ last)]; styleEntries (n + k) read : Read _) r =
      styleEntries n read' u := by
    rw [bind_ok (expand_single m _ r), hbody]
    exact hleft
  have hright :
      (do expand [(m, front ++ last ++ [.token semicolon])]; styleEntries (n + k) read : Read _) r =
        styleEntries n read' w := by
    rw [bind_ok (expand_single m _ r), List.append_assoc, hbody]
    simpa using hright
  refine ⟨?_, u, hleft, hpair.items, hread.ends⟩
  rw [hleft, hright]
  exact hread.entries n read'

/-- The reader before `b:c`, with a mixin `k` whose body is `color:red`. -/
def beforeProperty : Reader :=
  { cursor := .ofTokens [.bare .ident "b", .bare .colon ":", .bare .ident "c"]
    scopes := ({} : Scopes).setMixin "k" ⟨none, [.token (.bare .ident "color"),
      .token (.bare .colon ":"), .token (.bare .ident "red")]⟩ }

/-- The statements `@include k;x:y;` of a body. -/
def nestedFront : List Value :=
  [.token (.bare .atKeyword "include"), .token (.bare .ident "k"),
    .token (.bare .semicolon ";"), .token (.bare .ident "x"), .token (.bare .colon ":"),
    .token (.bare .ident "y"), .token (.bare .semicolon ";")]

/-- The statements `@include k;width:calc(1)` of a body, the last one without a semicolon. -/
def calcWidth : List Value :=
  [.token (.bare .atKeyword "include"), .token (.bare .ident "k"), .token (.bare .semicolon ";"),
    .token (.bare .ident "width"), .token (.bare .colon ":"),
    .call (.bare .function "calc") [[.token (.bare .number "1")]] [] (some (.bare .closeParen ")"))]

/-- Only the sentinel is left in front of the reader. -/
def isAtSentinel (t : Reader) : Bool :=
  match t.cursor.items with
  | [.value (.token s)] => s == sentinel
  | _ => false

theorem items_of_isAtSentinel (h : isAtSentinel t = true) :
    t.cursor.items = [.value (.token sentinel)] := by
  unfold isAtSentinel at h
  split at h
  · next s hitems => rw [hitems, eq_of_beq h]
  · cases h

/-- The mixin `k` has a declaration of a name without a semicolon for its body. -/
def bindsDeclaration (s : Scopes) : Bool :=
  match s.findMixin? "k" with
  | some ⟨none, [.token property, .token colon, .token value]⟩ =>
    property.type == .ident && colon.type == .colon && value.type == .ident
  | _ => false

theorem openBody_calcWidth {s : Scopes} (h : bindsDeclaration s = true) :
    OpenBody s (calcWidth.map .value) := by
  have hwidth : OpenBody s ((calcWidth.drop 3).map .value) :=
    .last (@OpenDeclaration.intro s _ _ [] _ rfl (List.forall_mem_nil _) rfl
      (.group (.inr rfl) rfl .nil))
  unfold bindsDeclaration at h
  split at h
  · next property colon value hmixin =>
      simp only [Bool.and_eq_true, beq_iff_eq] at h
      obtain ⟨⟨hproperty, hcolon⟩, hvalue⟩ := h
      have hdeclaration : OpenDeclaration s [.token property, .token colon, .token value] := by
        refine @OpenDeclaration.intro s _ _ [] _ hproperty (List.forall_mem_nil _) hcolon ?_
        refine .token (by rw [hvalue]; rfl) ?_ (fun hdollar => ?_) .nil
        · simp [Value.endsDeclaration, Value.hasType, hvalue]
        · rw [Token.isDelim, hvalue] at hdollar
          cases hdollar
      refine @OpenBody.inclusion s _ _ [.token (.bare .ident "k")] _ rfl (by decide) (by decide) rfl ?_
      intro found hfound
      cases hfound with
      | skip htype _ => rcases htype with htype | htype <;> cases htype
      | name _ hfind hbody hnil =>
          cases hnil
          rw [show (Token.bare .ident "k").text = "k" from rfl, hmixin] at hfind
          cases hfind
          cases hbody
          exact .declaration hdeclaration hwidth
  · cases h

/-- Both the statements in front and those at the end include another mixin, whose body has no semicolon
at its end either. -/
theorem styleEntries_expand_semicolon_nestedFront :
    ∃ read t, afterStatements 3 40 [] (beforeProperty.probing "m" nestedFront) = some (read, t) ∧
      t.cursor.items = [.value (.token sentinel)] ∧ OpenBody t.scopes (calcWidth.map .value) ∧
      Matched (fun _ _ _ => True)
        ((do expand [("m", nestedFront ++ calcWidth)]; styleEntries (40 + 3) [] : Read _)
          beforeProperty)
        ((do expand [("m", nestedFront ++ calcWidth ++ [.token (.bare .semicolon ";")])]
             styleEntries (40 + 3) [] : Read _) beforeProperty) ∧
      ∃ u : Reader,
        (do expand [("m", nestedFront ++ calcWidth)]; styleEntries (40 + 3) [] : Read _)
          beforeProperty = styleEntries 40 read u ∧
        u.cursor.items = calcWidth.map .value ++ .marker "m" :: beforeProperty.cursor.items ∧
        ∀ i, EndsBody i "m" beforeProperty.cursor.items u := by
  have hok : ((afterStatements 3 40 [] (beforeProperty.probing "m" nestedFront)).any
      fun found => isAtSentinel found.2 && bindsDeclaration found.2.scopes) = true := by
    decide +kernel
  cases hfront : afterStatements 3 40 [] (beforeProperty.probing "m" nestedFront) with
  | none =>
      rw [hfront] at hok
      cases hok
  | some found =>
      obtain ⟨read, t⟩ := found
      rw [hfront] at hok
      obtain ⟨hplace, hscopes⟩ := Bool.and_eq_true_iff.mp hok
      have hend := items_of_isAtSentinel hplace
      have hlast := openBody_calcWidth hscopes
      have hsemicolon : (Token.bare .semicolon ";").type = .semicolon := rfl
      exact ⟨read, t, rfl, hend, hlast, styleEntries_expand_semicolon hsemicolon hfront hend hlast⟩

end Read

/-- A rule that includes a mixin with the body, before a declaration of its own. -/
def inclusionOf (body : String) : String :=
  "@mixin m \x7b " ++ body ++ " \x7d a \x7b @include m; color: red; \x7d"

/-- An at-rule without a semicolon at the end of a body takes the declaration behind the inclusion. -/
theorem atRule_behind_bodyEnd :
    compile {} "" (inclusionOf "@foo x") = .ok "@foo x  color: red;\n" ∧
      compile {} "" (inclusionOf "@foo x;") =
        .ok "a \x7b\n  color: red;\n\x7d\n\n@foo x;\n" := by
  have hopen : (compile {} "" (inclusionOf "@foo x")).toOption = some "@foo x  color: red;\n" := by
    decide +kernel
  have hclosed : (compile {} "" (inclusionOf "@foo x;")).toOption =
      some "a \x7b\n  color: red;\n\x7d\n\n@foo x;\n" := by
    decide +kernel
  constructor
  · cases hrun : compile {} "" (inclusionOf "@foo x") with
    | error e => simp [hrun, Except.toOption] at hopen
    | ok text => simpa [hrun, Except.toOption] using hopen
  · cases hrun : compile {} "" (inclusionOf "@foo x;") with
    | error e => simp [hrun, Except.toOption] at hclosed
    | ok text => simpa [hrun, Except.toOption] using hclosed

end Cascade
