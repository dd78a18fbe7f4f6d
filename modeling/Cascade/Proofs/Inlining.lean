import Cascade.Proofs.Histories
import Cascade.Proofs.Inclusions

/-!
# Inclusion and inlining

Including a mixin without parameters is inlining its body, where the body holds no
variables and ends with a semicolon.

**Method.**  The statements before the inclusion are read alike by a reader that knows the
mixin and one that does not (`alike_afterStatements`).  At the inclusion the first reader
has the groups of the body in front, with a marker behind them, and the second one has
the tokens of the body: they are `Alike`, and go on to read the same
(`Proofs.StatementSimulation`).

**Results.**
* `agree_entries`: the block with the inclusion and the block with the body.
* `Sheet.included_inlined`: the two stylesheets have the same outcome, unless the head of a
  mixin definition in the body is grouped already.
-/

namespace Cascade

/-! ## Bodies of mixins -/

/-- The tokens are the body of a mixin: it holds no variables and ends with a semicolon, and its
brackets group to the values. -/
structure PlainBody (ts : List Token) (vs : List Value) : Prop where
  grouped : Grouped ts vs
  dollars : ∀ t ∈ ts, t.isDelim "$" = false
  ends : ∃ front semicolon blanks, ts = front ++ semicolon :: blanks ∧ semicolon.type = .semicolon ∧
    ∀ t ∈ blanks, t.type = .whitespace

section PlainBody

variable {ts : List Token} {vs : List Value} {m : String} {l : List Item}

theorem PlainBody.calm (h : PlainBody ts vs) :
    ∀ v ∈ vs, v.Calm :=
  h.grouped.made (fun t ht hsingle => ⟨hsingle.opens, h.dollars t ht⟩) fun _ _ _ => trivial

theorem Guarded.blanks_append (hvs : ∀ v ∈ vs, v.Calm ∧ v.isWhitespace = true) (h : Guarded m l) :
    Guarded m (vs.map .value ++ l) := by
  induction vs with
  | nil => exact h
  | cons v vs ih =>
      obtain ⟨hv, hvs⟩ := List.forall_mem_cons.mp hvs
      exact ⟨fun _ => ⟨hv.1, .inl hv.2⟩, ih hvs⟩

/-- In front of the end of the mixin the body is read as it stands, and its statements end in it. -/
theorem PlainBody.guarded (h : PlainBody ts vs) (hl : ¬ Owned m l) :
    Guarded m (vs.map .value ++ .marker m :: l) := by
  obtain ⟨front, semicolon, blanks, rfl, hsemicolon, hblanks⟩ := h.ends
  have hsingle : ∀ t ∈ semicolon :: blanks, t.type.isCloser = false ∧ t.type.closer? = none := by
    intro t ht
    rcases List.mem_cons.mp ht with rfl | ht
    · rw [hsemicolon]
      exact ⟨rfl, rfl⟩
    · rw [hblanks t ht]
      exact ⟨rfl, rfl⟩
  obtain ⟨us, behind, rfl, -, hbehind⟩ := h.grouped.exists_of_append fun t ht => (hsingle t ht).1
  obtain rfl := hbehind.eq_map fun t ht => (hsingle t ht).2
  have hcalm := h.calm
  have hrest : Guarded m (.marker m :: l) := Guarded.of_not_owned (l := l) hl
  have hend : Guarded m ((blanks.map Value.token).map .value ++ .marker m :: l) := by
    refine Guarded.blanks_append (fun v hv => ⟨hcalm v (by simp_all), ?_⟩) hrest
    obtain ⟨t, ht, rfl⟩ := List.mem_map.mp hv
    simp [Value.isWhitespace, Value.hasType, hblanks t ht]
  have hstop : (Value.token semicolon).hasType .semicolon = true := by
    simp [Value.hasType, hsemicolon]
  rw [List.map_append, List.append_assoc]
  refine Guarded.values_append (fun _ v hv => hcalm v (List.mem_append_left _ hv)) (fun _ => .inl hstop)
    ⟨fun _ => ⟨hcalm _ (by simp), .inr (.inl hstop)⟩, hend⟩

end PlainBody

/-! ## Scopes -/

section Scopes

variable {p : Pairing} (x : Mixin)

theorem made_empty (q q' : Token → Prop) :
    Scope.Made p.mixin q q' {} :=
  Scope.made_empty [] false

/-- The first reader knows the mixin, in the outermost scope. -/
theorem likeScopes_left (hknown : p.known = none) :
    LikeScopes p (({} : Scopes).setMixin p.mixin x) {} where
  frames := by
    refine .cons ⟨rfl, rfl, rfl, rfl, fun k hk => ?_⟩ .nil
    exact (Bindings.find?_set_of_ne [] x hk).symm
  known := hknown.symm
  clean := by
    intro f hf
    rw [List.mem_singleton.mp hf]
    refine ⟨List.forall_mem_nil _, List.forall_mem_nil _, fun k hk y hy => ?_⟩
    change y ∈ Bindings.find? (Bindings.set [] p.mixin x) k at hy
    rw [Bindings.find?_set_of_ne [] x hk] at hy
    cases hy

/-- The second reader knows the mixin, in the outermost scope. -/
theorem likeScopes_right (hknown : p.known = some x) :
    LikeScopes p {} (({} : Scopes).setMixin p.mixin x) where
  frames := by
    refine .cons ⟨rfl, rfl, rfl, rfl, fun k hk => ?_⟩ .nil
    exact Bindings.find?_set_of_ne [] x hk
  known := by
    rw [hknown]
    change List.findSome? _ [_] = some x
    simp [Scopes.setMixin]
  clean := by
    intro f hf
    rw [List.mem_singleton.mp hf]
    exact made_empty _ _

end Scopes

/-! ## Statements before the inclusion -/

theorem Stop.IsCut.excused {e : Stop} (h : e.IsCut) (p : Pairing) :
    e.Excused p := by
  cases e with
  | exhausted => trivial
  | fault d => exact .inl h

/-- The reader in the block of a rule, with scopes around it, at the start of the tokens. -/
def Reader.inBlock (limits : Limits) (scopes : Scopes) (ts : List Token) : Reader :=
  { cursor := .ofValues (ts.map .token) 0, scopes := scopes.enter, nesting := 1, limits := limits }

namespace Read

variable {p : Pairing} {k n n' : Nat} {limits : Limits} {m : String} {pre : List Token}
  {read read₁ read₂ : List Entry} {r s t u : Reader}

/-- In the block of a rule a number of statements is read, and they are all of the tokens: with the
sentinel behind them, they leave just the sentinel.  What they bind is read as it stands. -/
def EndsInBlock (k n : Nat) (limits : Limits) (m : String) (scopes : Scopes) (pre : List Token) :
    Prop :=
  ∃ read t, afterStatements k n [] (.inBlock limits scopes (pre ++ [sentinel])) = some (read, t) ∧
    t.cursor.items = [.value (.token sentinel)] ∧ ∀ f ∈ t.scopes.frames, f.Calm m

theorem alike_styleStep (h : Alike p r s) (hr : styleStep n read r = some (read₁, t))
    (hs : styleStep n' read s = some (read₂, u)) :
    read₂ = read₁ ∧ Alike p t u := by
  unfold styleStep at hr hs
  cases hpeek : r.cursor.peek 0 with
  | none =>
      rw [hpeek] at hr
      cases hr
  | some v =>
      cases hpeek' : s.cursor.peek 0 with
      | none =>
          rw [hpeek'] at hs
          cases hs
      | some v' =>
          have hstatement : Kindred p r.cursor.items (fun _ e e' => e' = e) (styleStatement n v r)
              (styleStatement n' v' s) :=
            (kindred_bodies p n).styleStatement h hpeek hpeek'
          rw [hpeek] at hr
          rw [hpeek'] at hs
          dsimp only at hr hs
          generalize styleStatement n v r = o at hr hstatement
          generalize styleStatement n' v' s = o' at hs hstatement
          cases hstatement with
          | excused => cases hr
          | cut => cases hs
          | same => cases hr
          | ok hfound halike _ =>
              cases hr
              cases hs
              exact ⟨by rw [hfound], halike⟩

/-- Statements are read alike by readers that are alike. -/
theorem alike_afterStatements (h : Alike p r s) (hr : afterStatements k n read r = some (read₁, t))
    (hs : afterStatements k n' read s = some (read₂, u)) :
    read₂ = read₁ ∧ Alike p t u := by
  induction k generalizing read r s with
  | zero =>
      cases hr
      cases hs
      exact ⟨rfl, h⟩
  | succ k ih =>
      rw [afterStatements] at hr hs
      cases hstep : styleStep (n + k) read r with
      | none =>
          rw [hstep] at hr
          cases hr
      | some next =>
          cases hstep' : styleStep (n' + k) read s with
          | none =>
              rw [hstep'] at hs
              cases hs
          | some next' =>
              obtain ⟨readr, r'⟩ := next
              obtain ⟨reads, s'⟩ := next'
              obtain ⟨rfl, halike⟩ := alike_styleStep h hstep hstep'
              rw [hstep] at hr
              rw [hstep'] at hs
              dsimp only at hr hs
              split at hr
              · split at hs
                · exact ih halike hr hs
                · cases hs
              · cases hr

theorem alike_inBlock {a b : Scopes} (hscopes : LikeScopes p a b) {ts : List Token}
    (hclean : ∀ t ∈ ts, t.Clean p.mixin) :
    Alike p (.inBlock limits a ts) (.inBlock limits b ts) := by
  have hfree : ¬ Owned p.mixin (Reader.inBlock limits a ts).cursor.items :=
    not_owned_values (ts.map .token)
  refine ⟨.refl hfree, ?_, .of_not_owned hfree, hscopes.push [] false, fun hown => (hfree hown).elim⟩
  intro v hv
  have hrest : (Reader.inBlock limits a ts).cursor.rest = ts.map .token := by
    simp [Reader.inBlock, Cursor.rest, Cursor.ofValues, List.filterMap_map, Function.comp_def,
      Item.value?]
  rw [hrest] at hv
  obtain ⟨t, ht, rfl⟩ := List.mem_map.mp hv
  exact .token (hclean t ht)

/-- What is read before the sentinel is read before other items in its place. -/
theorem exists_behind {us : List Item} {scopes : Scopes} (hus : Item.Silent us)
    (h : afterStatements k n [] (.inBlock limits scopes (pre ++ [sentinel])) = some (read, t))
    (ht : t.cursor.items = [.value (.token sentinel)]) :
    styleEntries (n + k) []
        ((Reader.inBlock limits scopes (pre ++ [sentinel])).withItems (tokenItems pre ++ us)) =
      styleEntries n read (t.withItems us) := by
  have habreast : Reader.Abreast us (.inBlock limits scopes (pre ++ [sentinel]))
      ((Reader.inBlock limits scopes (pre ++ [sentinel])).withItems (tokenItems pre ++ us)) := by
    refine ⟨tokenItems pre, ?_, rfl⟩
    simp [Reader.inBlock, Cursor.ofValues, tokenItems]
  obtain ⟨u, hentries, l, hl, rfl⟩ := afterStatements_abreast hus h habreast
  rw [ht] at hl
  obtain rfl : l = [] := by simpa using hl
  exact hentries

/-- The body of the mixin is in front of one reader, grouped and with the marker of the mixin behind
it, and its tokens are in front of the other one. -/
theorem alike_behind_inclusion {body post : List Token} {vs : List Value} (h : Alike p t u)
    (hgrouping : p.grouping) (hbody : PlainBody body vs)
    (hclean : ∀ o ∈ body ++ post, o.Clean p.mixin) (hcalm : ∀ f ∈ t.scopes.frames, f.Calm p.mixin)
    (hr : r.cursor.items = vs.map .value ++ .marker p.mixin :: tokenItems post)
    (hrscopes : r.scopes = t.scopes)
    (hs : s.cursor.items = tokenItems (body ++ post)) (hsscopes : s.scopes = u.scopes) :
    Alike p r s := by
  have hpost : ¬ Owned p.mixin (tokenItems post) := by
    have hfree := not_owned_values (m := p.mixin) (post.map Value.token)
    simpa [tokenItems, Function.comp_def] using hfree
  refine ⟨?_, ?_, ?_, ?_, fun _ => by rwa [hrscopes]⟩
  · rw [hr, hs]
    have hkin := (Kin.of_grouped hgrouping hbody.grouped).append (.own (Kin.refl hpost))
    simpa [tokenItems] using hkin
  · intro v hv
    have hrest : r.cursor.rest = vs ++ post.map .token := by
      rw [Cursor.rest, hr]
      simp [tokenItems, List.filterMap_map, Function.comp_def, Item.value?, List.filterMap_append,
        List.filterMap_cons]
    rw [hrest] at hv
    rcases List.mem_append.mp hv with hv | hv
    · refine hbody.grouped.made (fun o ho _ => hclean o (List.mem_append_left _ ho)) ?_ v hv
      exact fun o ho htype => hclean o (List.mem_append_left _ ho) (.inr htype)
    · obtain ⟨o, ho, rfl⟩ := List.mem_map.mp hv
      exact .token (hclean o (List.mem_append_right _ ho))
  · rw [hr]
    exact hbody.guarded hpost
  · rw [hrscopes, hsscopes]
    exact h.scopes

/-- The entries of the block that includes the mixin agree with those of the block that holds its
body. -/
theorem agree_entries {keyword : Token} {ts body post : List Token} {vs : List Value}
    (hinclusion : PlainInclusion m (keyword :: ts)) (hbody : PlainBody body vs)
    (hclean : ∀ t ∈ pre ++ body ++ post, t.Clean m)
    (hsilent : Item.Silent (tokenItems (body ++ post)))
    (hpre : EndsInBlock k n limits m (({} : Scopes).setMixin m ⟨none, vs⟩) pre)
    (hpre' : EndsInBlock k n limits m {} pre) :
    Agree ⟨m, none, True⟩
      (styleEntries (n + k) [] ((Reader.inBlock limits (({} : Scopes).setMixin m ⟨none, vs⟩)
        (pre ++ [sentinel])).withItems (tokenItems pre ++ tokenItems (keyword :: ts ++ post))))
      (styleEntries (n + k) [] ((Reader.inBlock limits {} (pre ++ [sentinel])).withItems
        (tokenItems pre ++ tokenItems (body ++ post)))) := by
  obtain ⟨read₁, t₁, hrun₁, hend₁, hcalm⟩ := hpre
  obtain ⟨read₂, t₂, hrun₂, hend₂, -⟩ := hpre'
  have hsign : sentinel.Clean m := by
    rintro (htype | htype) <;> cases htype
  have hclean' : ∀ t ∈ pre ++ [sentinel], t.Clean m := by
    intro t ht
    rcases List.mem_append.mp ht with ht | ht
    · exact hclean t (by simp [ht])
    · rw [List.mem_singleton.mp ht]
      exact hsign
  have hsilent' : Item.Silent (tokenItems (keyword :: ts ++ post)) := by
    have hkeyword : keyword.type = .atKeyword := by
      cases hinclusion
      assumption
    intro v hv
    have hvisible : (Value.token keyword).isWhitespace = false := by
      simp [Value.isWhitespace, Value.hasType, hkeyword]
    simp only [tokenItems, List.cons_append, List.map_cons, List.filterMap_cons, Item.value?,
      List.dropWhile_cons, hvisible, Bool.false_eq_true, if_false, List.head?_cons,
      Option.mem_some_iff] at hv
    subst hv
    simp [Value.isDefinitionSign, Value.hasType, Value.isDelim, Token.isDelim, hkeyword]
  -- Both blocks come to the inclusion, and the mixin is still bound where the first one does.
  obtain ⟨rfl, halike⟩ := alike_afterStatements
    (alike_inBlock (p := ⟨m, none, True⟩) (likeScopes_left _ rfl) hclean') hrun₁ hrun₂
  obtain ⟨-, hback⟩ := alike_afterStatements
    (alike_inBlock (p := ⟨m, some ⟨none, vs⟩, False⟩) (likeScopes_right _ rfl) hclean') hrun₂ hrun₁
  have hbound : t₁.scopes.findMixin? m = some ⟨none, vs⟩ := hback.scopes.known
  rw [exists_behind hsilent' hrun₁ hend₁, exists_behind hsilent hrun₂ hend₂]
  cases n with
  | zero => exact .excused trivial
  | succ n =>
      have hitems : (t₁.withItems (tokenItems (keyword :: ts ++ post))).cursor.items =
          tokenItems (keyword :: ts) ++ tokenItems post := by
        simp [Reader.withItems, tokenItems]
      have hfront : (t₁.withItems (tokenItems (keyword :: ts ++ post))).cursor.peek 0 =
          some (.token keyword) := Cursor.peek_of_blank Item.blank_nil hitems
      generalize hright : styleEntries (n + 1) read₂ (t₂.withItems (tokenItems (body ++ post))) = o
      rw [styleEntries, bind_ok (peek_run _ _), hfront]
      dsimp only
      rcases takes_inclusion (r := t₁.withItems (tokenItems (keyword :: ts ++ post))) hinclusion hbound
        hitems n with ⟨e, w, hrun, hcut⟩ | ⟨w, hrun, hw, hwscopes⟩
      · rw [bind_error hrun]
        exact .excused (hcut.excused _)
      · rw [bind_ok hrun, ← hright]
        have hbehind : Alike ⟨m, none, True⟩ w (t₂.withItems (tokenItems (body ++ post))) :=
          alike_behind_inclusion halike trivial hbody (fun o ho => hclean o (by simp_all))
            hcalm hw hwscopes rfl rfl
        exact ((kindred_bodies _ n).styleEntries hbehind).agree

/-! ## The rules around the blocks -/

section Rules

variable {α : Type} {R : α → Reader → Reader → Prop} {o o' q : EStateM.Result Stop Reader α}

theorem Matched.agree_left (h : Matched R o o') (hagree : Agree p o' q) :
    Agree p o q := by
  cases h with
  | stopped =>
      cases hagree with
      | excused he => exact .excused he
      | cut he => exact .cut he
      | same hkind => exact .same hkind
  | result =>
      cases hagree with
      | cut he => exact .cut he
      | ok => exact .ok

theorem Matched.agree_right (h : Matched R o o') (hagree : Agree p q o') :
    Agree p q o := by
  cases h with
  | stopped =>
      cases hagree with
      | excused he => exact .excused he
      | cut he => exact .cut he
      | same hkind => exact .same hkind
  | result =>
      cases hagree with
      | excused he => exact .excused he
      | ok => exact .ok

/-- Bodies are compared inside their blocks and scopes. -/
theorem Agree.inside {x y : Read α}
    (h : Agree p
      (x { r with
        nesting := r.nesting + 1
        deepest := max r.deepest (r.nesting + 1)
        scopes := r.scopes.enter })
      (y { s with
        nesting := s.nesting + 1
        deepest := max s.deepest (s.nesting + 1)
        scopes := s.scopes.enter })) :
    Agree p (nested (inScope x) r) (nested (inScope y) s) := by
  by_cases hroom : r.nesting < r.limits.nestingDepth
  · by_cases hroom' : s.nesting < s.limits.nestingDepth
    · rw [nested_of_lt hroom, nested_of_lt hroom']
      refine Agree.andFinally ?_ _ _
      rw [inScope_run, inScope_run]
      exact Agree.andFinally h _ _
    · rw [nested_of_le (Int.not_lt.mp hroom')]
      exact .cut rfl
  · rw [nested_of_le (Int.not_lt.mp hroom)]
    exact .excused (.inl rfl)

/-- A reader of the block of the only rule of a stylesheet reads what the reader in the block does. -/
theorem matched_inBlock (limits : Limits) (scopes : Scopes) {rest : List Token}
    (hcursor : t.cursor = .ofValues ((pre ++ rest).map .token) 0) (hscopes : t.scopes = scopes.enter)
    (hnesting : t.nesting = 1) (hlimits : t.limits = limits) (n : Nat) (read : List Entry) :
    Matched (fun _ _ _ => True) (styleEntries n read t)
      (styleEntries n read ((Reader.inBlock limits scopes (pre ++ [sentinel])).withItems
        (tokenItems pre ++ tokenItems rest))) := by
  have hlast := matched_styleEntries_lastAt n read t
    (Reader.inBlock limits scopes (pre ++ [sentinel])).cursor.last
  refine hlast.trans (((composed_bodies n).styleEntries read).oblivious _ _ ⟨?_, ?_, ?_, ?_⟩)
  · simp [Reader.lastAt, Reader.withItems, Reader.inBlock, hcursor, Cursor.ofValues, tokenItems,
      Function.comp_def]
  · exact hscopes.symm
  · exact hnesting.symm
  · exact hlimits.symm

/-- A reader behind the last rule of a stylesheet, with the scopes that the rules have left. -/
structure Finished (limits : Limits) (scopes : Scopes) (r : Reader) : Prop where
  items : r.cursor.items = []
  scopes : r.scopes = scopes
  depth : r.cursor.depth = 0
  nesting : r.nesting = 0
  limits : r.limits = limits

theorem finished_of_nextRule {ts : List Token} {rule : Option Rule} {scopes : Scopes}
    (hrun : nextRule n (.ofTokens ts limits) = .ok rule t) (hitems : t.cursor.items = [])
    (hscopes : t.scopes = scopes) :
    Finished limits scopes t := by
  have hafter := after_ok hrun
  have hsteady := steady_nextRule n (.ofTokens ts limits)
  have hdepth : (Read.after (nextRule n) (.ofTokens ts limits)).cursor.depth = 0 :=
    (composed_nextRule n).depth_of_ended (by rwa [hafter])
  rw [hafter] at hsteady hdepth
  exact ⟨hitems, hscopes, hdepth, hsteady.nesting, hsteady.limits⟩

theorem Finished.alike {a b : Scopes} (hr : Finished limits a r) (hs : Finished limits b s)
    (hscopes : LikeScopes p a b) :
    Alike p r s := by
  have hfree : ¬ Owned p.mixin r.cursor.items := by
    rw [hr.items]
    exact List.not_mem_nil
  refine ⟨?_, ?_, .of_not_owned hfree, ?_, fun hown => (hfree hown).elim⟩
  · rw [hr.items, hs.items]
    exact .nil
  · intro v hv
    rw [Cursor.rest, hr.items] at hv
    cases hv
  · rw [hr.scopes, hs.scopes]
    exact hscopes

/-- Two rules with the same prelude, whose blocks agree, are the last ones of two stylesheets. -/
theorem kindred_lastRule {a b : Scopes} (hr : Finished limits a r) (hs : Finished limits b s)
    (hscopes : LikeScopes p a b) {prelude : List Value} {opener : Token} {closer : Option Token}
    {rest rest' : List Token}
    (hagree : Agree p
      (styleEntries n [] ((Reader.inBlock limits a (pre ++ [sentinel])).withItems
        (tokenItems pre ++ tokenItems rest)))
      (styleEntries n [] ((Reader.inBlock limits b (pre ++ [sentinel])).withItems
        (tokenItems pre ++ tokenItems rest')))) :
    Kindred p r.cursor.items (fun _ es es' => es' = es)
      ((do
        let entry ← styleRule (n + 2) ⟨prelude, opener, (pre ++ rest).map .token, closer⟩
        ruleList (n + 2) [entry] : Read (List Entry)) r)
      ((do
        let entry ← styleRule (n + 2) ⟨prelude, opener, (pre ++ rest').map .token, closer⟩
        ruleList (n + 2) [entry] : Read (List Entry)) s) := by
  have halike := hr.alike hs hscopes
  have hrule : Kindred p r.cursor.items (fun _ e e' => e' = e)
      (styleRule (n + 2) ⟨prelude, opener, (pre ++ rest).map .token, closer⟩ r)
      (styleRule (n + 2) ⟨prelude, opener, (pre ++ rest').map .token, closer⟩ s) := by
    rw [styleRule, styleRule]
    cases Selector.parse prelude with
    | error d => exact .fail rfl
    | ok selectors =>
        have hbody : Kindred p r.cursor.items (fun _ es es' => es' = es)
            (styleBlock (n + 1) ⟨opener, (pre ++ rest).map .token, closer⟩ r)
            (styleBlock (n + 1) ⟨opener, (pre ++ rest').map .token, closer⟩ s) := by
          rw [styleBlock, styleBlock]
          refine kindred_within halike ((steady_bodies n).styleEntries _)
            ((steady_bodies n).styleEntries _) (.inside ?_)
          have hleft := matched_inBlock limits a (t := { r with
              cursor := .ofValues ((pre ++ rest).map .token) r.cursor.depth
              nesting := r.nesting + 1
              deepest := max r.deepest (r.nesting + 1)
              scopes := r.scopes.enter })
            (by rw [hr.depth]) (by rw [hr.scopes]) (by rw [hr.nesting]; rfl) hr.limits n []
          have hright := matched_inBlock limits b (t := { s with
              cursor := .ofValues ((pre ++ rest').map .token) s.cursor.depth
              nesting := s.nesting + 1
              deepest := max s.deepest (s.nesting + 1)
              scopes := s.scopes.enter })
            (by rw [hs.depth]) (by rw [hs.scopes]) (by rw [hs.nesting]; rfl) hs.limits n []
          exact hleft.agree_left (hright.agree_right hagree)
        refine hbody.bind ?_
        rintro _ es t u rfl halike _
        exact .pure halike rfl
  refine hrule.bind ?_
  rintro _ entry t u rfl halike _
  exact (kindred_bodies p (n + 2)).ruleList halike

/-- The rules of two stylesheets, which come to the same rule with blocks that agree, and end behind
it. -/
theorem agree_rules {ts ts' : List Token} {a b : Scopes} {prelude : List Value} {opener : Token}
    {closer : Option Token} {rest rest' : List Token}
    (hleft : Leaves (nextRule (n + 2)) (.ofTokens ts limits)
      (some (.qualified ⟨prelude, opener, (pre ++ rest).map .token, closer⟩)) [] a)
    (hright : Leaves (nextRule (n + 2)) (.ofTokens ts' limits)
      (some (.qualified ⟨prelude, opener, (pre ++ rest').map .token, closer⟩)) [] b)
    (hscopes : LikeScopes p a b)
    (hagree : Agree p
      (styleEntries n [] ((Reader.inBlock limits a (pre ++ [sentinel])).withItems
        (tokenItems pre ++ tokenItems rest)))
      (styleEntries n [] ((Reader.inBlock limits b (pre ++ [sentinel])).withItems
        (tokenItems pre ++ tokenItems rest')))) :
    Agree p (ruleList (n + 3) [] (.ofTokens ts limits)) (ruleList (n + 3) [] (.ofTokens ts' limits)) := by
  rw [ruleList]
  rcases hleft with ⟨e, r, hrun, hcut⟩ | ⟨r, hrun, hitems, hleave⟩
  · rw [bind_error hrun]
    exact .excused (hcut.excused p)
  rcases hright with ⟨e, s, hrun', hcut⟩ | ⟨s, hrun', hitems', hleave'⟩
  · rw [bind_error hrun']
    exact .cut hcut
  rw [bind_ok hrun, bind_ok hrun']
  have hr := finished_of_nextRule hrun hitems hleave
  have hs := finished_of_nextRule hrun' hitems' hleave'
  exact (kindred_lastRule hr hs hscopes hagree).agree

end Rules

end Read

namespace Sheet

open Read

/-- A style rule that includes the mixin, behind the definition of the mixin. -/
def included (m : String) (s pre body post : List Token) : List Token :=
  [.bare .atKeyword "mixin", .bare .whitespace " ", .bare .ident m, .bare .whitespace " ",
    .bare .openBrace "\x7b"] ++ body ++ [.bare .closeBrace "\x7d"] ++
  s ++ [.bare .openBrace "\x7b"] ++ pre ++
  [.bare .atKeyword "include", .bare .whitespace " ", .bare .ident m, .bare .semicolon ";"] ++
  post ++ [.bare .closeBrace "\x7d"]

/-- The style rule with the body of the mixin in place of the inclusion. -/
def inlined (s pre body post : List Token) : List Token :=
  s ++ [.bare .openBrace "\x7b"] ++ pre ++ body ++ post ++ [.bare .closeBrace "\x7d"]

/-- Both are the same stylesheet, or both are faults of the same kind. -/
def SameOutcome : Except Stop Sheet → Except Stop Sheet → Prop
  | .ok sheet, .ok sheet' => sheet = sheet'
  | .error (.fault d), .error (.fault d') => d.kind = d'.kind
  | _, _ => False

section Outcomes

variable {budget : Nat} {limits : Limits} {file : String} {ts ts' : List Token}

theorem withFile_same (d : Diagnostic) (file : String) :
    (d.withFile file).cause = d.cause ∧ (d.withFile file).token = d.token := by
  unfold Diagnostic.withFile
  split
  · exact ⟨rfl, rfl⟩
  · exact ⟨rfl, rfl⟩

theorem kind_withFile (d : Diagnostic) (file : String) :
    (d.withFile file).kind = d.kind :=
  congrArg Cause.kind (withFile_same d file).1

theorem isCut_locate {e : Stop} (h : e.IsCut) (file : String) :
    (locate file e).IsCut := by
  cases e with
  | exhausted => trivial
  | fault d => exact (kind_withFile d file).trans h

/-- Stylesheets whose rules agree have the same outcome, unless the first one stops at a head that is
grouped already. -/
theorem sameOutcome_of_agree {p : Pairing}
    (h : Read.Agree p (ruleList budget [] (.ofTokens ts limits))
      (ruleList budget [] (.ofTokens ts' limits)))
    (hends : ∀ stop, (parseTokens budget limits file ts).1 = .error stop → ¬ stop.IsCut)
    (hends' : ∀ stop, (parseTokens budget limits file ts').1 = .error stop → ¬ stop.IsCut) :
    SameOutcome (parseTokens budget limits file ts).1 (parseTokens budget limits file ts').1 ∨
      ∃ d, (parseTokens budget limits file ts).1 = .error (.fault d) ∧ d.AtGroupedHead := by
  unfold parseTokens run at *
  generalize ruleList budget [] (.ofTokens ts limits) = o at *
  generalize ruleList budget [] (.ofTokens ts' limits) = o' at *
  cases h with
  | @excused e _ _ he =>
      have hcut : ¬ e.IsCut := fun hcut => hends _ rfl (isCut_locate hcut file)
      cases e with
      | exhausted => exact (hcut trivial).elim
      | fault d =>
          rcases he with hlimit | ⟨_, hhead⟩
          · exact (hcut hlimit).elim
          · obtain ⟨hcause, htoken⟩ := withFile_same d file
            refine .inr ⟨d.withFile file, rfl, ?_⟩
            unfold Diagnostic.AtGroupedHead
            rwa [hcause, htoken]
  | cut he => exact (hends' _ rfl (isCut_locate he file)).elim
  | @same d d' _ _ hkind =>
      refine .inl ?_
      change (d.withFile file).kind = (d'.withFile file).kind
      rw [kind_withFile, kind_withFile, hkind]
  | ok => exact .inl rfl

end Outcomes

section Items

variable {m : String} {body post ts : List Token} {vs : List Value}

theorem itemsOf_of_balanced (h : BracketBalanced ts) :
    itemsOf ts = tokenItems ts := by
  rw [itemsOf, valuesOf_of_balanced h, tokenItems, List.map_map]
  rfl

/-- What follows a token that is not whitespace does not come first. -/
theorem opensDefinition_append (h : ∃ v ∈ valuesOf ts, v.isWhitespace = false) (us : List Token) :
    opensDefinition (ts ++ us) = opensDefinition ts := by
  obtain ⟨v, hv, hvisible⟩ := h
  rw [opensDefinition, opensDefinition, valuesOf_append, List.dropWhile_append]
  cases hfirst : (valuesOf ts).dropWhile Value.isWhitespace with
  | nil =>
      rw [List.dropWhile_eq_nil_iff.mp hfirst v hv] at hvisible
      cases hvisible
  | cons w ws => rfl

/-- The body of a mixin and what follows it make no definition of a name before them. -/
theorem silent_body_append (hbody : PlainBody body vs) (hpost : BracketBalanced post)
    (hsign : opensDefinition body = false) :
    Item.Silent (tokenItems (body ++ post)) := by
  have hvisible : ∃ v ∈ valuesOf body, v.isWhitespace = false := by
    obtain ⟨semicolon, hmem, hsemicolon⟩ : ∃ t ∈ body, t.type = .semicolon := by
      obtain ⟨front, semicolon, blanks, rfl, hsemicolon, -⟩ := hbody.ends
      exact ⟨semicolon, by simp, hsemicolon⟩
    rw [valuesOf_of_balanced hbody.grouped.balanced]
    exact ⟨_, List.mem_map_of_mem hmem, by simp [Value.isWhitespace, Value.hasType, hsemicolon]⟩
  rw [← itemsOf_of_balanced (hbody.grouped.balanced.append hpost)]
  refine silent_itemsOf ?_
  rw [opensDefinition_append hvisible, hsign]

end Items

section Stylesheets

variable {m : String} {s pre body post : List Token} {prelude vs : List Value}

/-- The definition of the mixin. -/
def mixinDefinition (m : String) (body : List Token) : List Token :=
  [.bare .atKeyword "mixin", .bare .whitespace " ", .bare .ident m, .bare .whitespace " ",
    .bare .openBrace "\x7b"] ++ (body ++ [.bare .closeBrace "\x7d"])

/-- The statement that includes the mixin. -/
def includeStatement (m : String) : List Token :=
  [.bare .atKeyword "include", .bare .whitespace " ", .bare .ident m, .bare .semicolon ";"]

theorem plainDefinition_mixinDefinition (h : Grouped body vs) :
    PlainDefinition m vs (mixinDefinition m body) :=
  .intro rfl (by decide) rfl rfl rfl rfl rfl rfl h

theorem plainInclusion_includeStatement (m : String) :
    PlainInclusion m (includeStatement m) :=
  .intro rfl (by decide) rfl rfl rfl rfl

theorem balanced_includeStatement (m : String) :
    BracketBalanced (includeStatement m) :=
  .single ⟨rfl, rfl, nofun⟩ <| .single ⟨rfl, rfl, nofun⟩ <| .single ⟨rfl, rfl, nofun⟩ <|
    .single ⟨rfl, rfl, nofun⟩ .nil

theorem balanced_mixinDefinition (h : BracketBalanced body) :
    BracketBalanced (mixinDefinition m body) :=
  .single ⟨rfl, rfl, nofun⟩ <| .single ⟨rfl, rfl, nofun⟩ <| .single ⟨rfl, rfl, nofun⟩ <|
    .single ⟨rfl, rfl, nofun⟩ <| .group rfl h .nil

/-- A style rule is read up to its block. -/
theorem takes_rule (hs : RuleHead s prelude) {inner : List Token} (hinner : BracketBalanced inner)
    {r : Reader} (hitems : r.cursor.items =
      tokenItems (s ++ .bare .openBrace "\x7b" :: (inner ++ [.bare .closeBrace "\x7d"]))) (n : Nat) :
    Takes (nextRule n) r (some (.qualified ⟨trimWhitespace (prelude.dropWhile Value.isWhitespace),
      ⟨.bare .openBrace "\x7b", inner.map .token, some (.bare .closeBrace "\x7d")⟩⟩)) [] := by
  refine takes_nextRule_head hs rfl rfl hinner ?_ n
  rw [hitems]
  simp [tokenItems]

theorem leaves_inlined (limits : Limits) (hs : RuleHead s prelude) (hpre : BracketBalanced pre)
    (hbody : BracketBalanced body) (hpost : BracketBalanced post) (n : Nat) :
    Read.Leaves (nextRule n) (.ofTokens (inlined s pre body post) limits)
      (some (.qualified ⟨trimWhitespace (prelude.dropWhile Value.isWhitespace),
        ⟨.bare .openBrace "\x7b", (pre ++ (body ++ post)).map .token,
          some (.bare .closeBrace "\x7d")⟩⟩)) [] {} := by
  have hinner := hpre.append (hbody.append hpost)
  have hsplit : inlined s pre body post =
      s ++ .bare .openBrace "\x7b" :: ((pre ++ (body ++ post)) ++ [.bare .closeBrace "\x7d"]) := by
    simp [inlined]
  have hbalanced : BracketBalanced (inlined s pre body post) := by
    rw [hsplit]
    exact hs.grouped.balanced.append (.group rfl hinner .nil)
  refine takes_rule hs hinner ?_ n
  rw [items_ofTokens, itemsOf_of_balanced hbalanced, hsplit]

theorem leaves_included (m : String) (limits : Limits) (hs : RuleHead s prelude)
    (hpre : BracketBalanced pre) (hbody : Grouped body vs) (hpost : BracketBalanced post) (n : Nat) :
    Read.Leaves (nextRule n) (.ofTokens (included m s pre body post) limits)
      (some (.qualified ⟨trimWhitespace (prelude.dropWhile Value.isWhitespace),
        ⟨.bare .openBrace "\x7b", (pre ++ (includeStatement m ++ post)).map .token,
          some (.bare .closeBrace "\x7d")⟩⟩)) [] (({} : Scopes).setMixin m ⟨none, vs⟩) := by
  have hinner := hpre.append ((balanced_includeStatement m).append hpost)
  have hsplit : included m s pre body post = mixinDefinition m body ++ (s ++ .bare .openBrace "\x7b" ::
      ((pre ++ (includeStatement m ++ post)) ++ [.bare .closeBrace "\x7d"])) := by
    simp [included, mixinDefinition, includeStatement]
  have hbalanced : BracketBalanced (included m s pre body post) := by
    rw [hsplit]
    exact (balanced_mixinDefinition hbody.balanced).append
      (hs.grouped.balanced.append (.group rfl hinner .nil))
  have hitems : (Reader.ofTokens (included m s pre body post) limits).cursor.items =
      tokenItems (mixinDefinition m body) ++ tokenItems (s ++ .bare .openBrace "\x7b" ::
        ((pre ++ (includeStatement m ++ post)) ++ [.bare .closeBrace "\x7d"])) := by
    rw [items_ofTokens, itemsOf_of_balanced hbalanced, hsplit, tokenItems, List.map_append]
    rfl
  refine leaves_nextRule_mixin (plainDefinition_mixinDefinition hbody) hitems (fun n r hr hscopes => ?_) n
  rw [show ({} : Scopes).setMixin m ⟨none, vs⟩ = r.scopes from hscopes.symm]
  exact takes_rule hs hinner hr n

/-- Including a mixin is inlining its body.  The statements before the inclusion end before it, both
where the mixin is known and where it is not, and what the body starts with does not continue them. -/
theorem included_inlined {k n : Nat} {limits : Limits} {file : String} (hs : RuleHead s prelude)
    (hbody : PlainBody body vs) (hsign : opensDefinition body = false) (hpre : BracketBalanced pre)
    (hpost : BracketBalanced post) (hfresh : ∀ t ∈ pre ++ body ++ post, t.Clean m)
    (hends : EndsInBlock k n limits m (({} : Scopes).setMixin m ⟨none, vs⟩) pre)
    (hends' : EndsInBlock k n limits m {} pre)
    (hcut : ∀ stop, (parseTokens (n + k + 3) limits file (included m s pre body post)).1 =
      .error stop → ¬ stop.IsCut)
    (hcut' : ∀ stop, (parseTokens (n + k + 3) limits file (inlined s pre body post)).1 =
      .error stop → ¬ stop.IsCut) :
    SameOutcome (parseTokens (n + k + 3) limits file (included m s pre body post)).1
        (parseTokens (n + k + 3) limits file (inlined s pre body post)).1 ∨
      ∃ d, (parseTokens (n + k + 3) limits file (included m s pre body post)).1 =
        .error (.fault d) ∧ d.AtGroupedHead := by
  have hrules := agree_rules
    (leaves_included m limits hs hpre hbody.grouped hpost (n + k + 2))
    (leaves_inlined limits hs hpre hbody.grouped.balanced hpost (n + k + 2))
    (likeScopes_left (p := ⟨m, none, True⟩) ⟨none, vs⟩ rfl)
    (agree_entries (plainInclusion_includeStatement m) hbody hfresh
      (silent_body_append hbody hpost hsign) hends hends')
  exact sameOutcome_of_agree hrules hcut hcut'

end Stylesheets

/-- The body `@mixin k{c:d;}.b{@include k;}e:f;` of a mixin. -/
def nestedBody : List Token :=
  [.bare .atKeyword "mixin", .bare .whitespace " ", .bare .ident "k", .bare .openBrace "\x7b",
    .bare .ident "c", .bare .colon ":", .bare .ident "d", .bare .semicolon ";", .bare .closeBrace "\x7d",
    .bare .delim ".", .bare .ident "b", .bare .openBrace "\x7b", .bare .atKeyword "include",
    .bare .whitespace " ", .bare .ident "k", .bare .semicolon ";", .bare .closeBrace "\x7d",
    .bare .ident "e", .bare .colon ":", .bare .ident "f", .bare .semicolon ";"]

/-- The definition `$x:1;` before the inclusion. -/
def boundBefore : List Token :=
  [.bare .delim "$", .bare .ident "x", .bare .colon ":", .bare .number "1", .bare .semicolon ";"]

/-- The declaration `g:$x;` behind the inclusion. -/
def usedBehind : List Token :=
  [.bare .ident "g", .bare .colon ":", .bare .delim "$", .bare .ident "x", .bare .semicolon ";"]

theorem exists_plainBody_nestedBody :
    ∃ vs, PlainBody nestedBody vs := by
  have hgroup {inner ts : List Token} {us vs : List Value} (hinner : Grouped inner us)
      (h : Grouped ts vs) :
      Grouped (.bare .openBrace "\x7b" :: (inner ++ .bare .closeBrace "\x7d" :: ts))
        (.block (.bare .openBrace "\x7b") us (some (.bare .closeBrace "\x7d")) :: vs) :=
    .block rfl hinner h
  have hmixin := Grouped.tokens_append [.bare .ident "c", .bare .colon ":", .bare .ident "d",
    .bare .semicolon ";"] (by decide) .nil
  have hrule := Grouped.tokens_append (includeStatement "k") (by decide) .nil
  have hlast := Grouped.tokens_append [.bare .ident "e", .bare .colon ":", .bare .ident "f",
    .bare .semicolon ";"] (by decide) .nil
  have hbehind := Grouped.tokens_append [.bare .delim ".", .bare .ident "b"] (by decide)
    (hgroup hrule hlast)
  have hwhole := Grouped.tokens_append
    [.bare .atKeyword "mixin", .bare .whitespace " ", .bare .ident "k"] (by decide)
    (hgroup hmixin hbehind)
  exact ⟨_, hwhole, by decide, nestedBody.dropLast, .bare .semicolon ";", [], rfl, rfl,
    List.forall_mem_nil _⟩

/-- The definition before the inclusion ends at its semicolon, whatever is bound outside. -/
theorem endsInBlock_boundBefore (mixins : Bindings Mixin) (hmixins : ∀ k ≠ "m", mixins.find? k = none) :
    EndsInBlock 1 36 {} "m" ⟨{ mixins := mixins }, []⟩ boundBefore := by
  obtain ⟨found, hrun⟩ : ∃ found, afterStatements 1 36 []
    (.inBlock {} ⟨{ mixins := mixins }, []⟩ (boundBefore ++ [sentinel])) = found := ⟨_, rfl⟩
  rw [EndsInBlock, hrun]
  cbv at hrun
  subst hrun
  refine ⟨_, _, rfl, rfl, List.forall_mem_cons.mpr ⟨?_, List.forall_mem_cons.mpr
    ⟨?_, List.forall_mem_nil _⟩⟩⟩
  · refine ⟨?_, List.forall_mem_nil _, fun _ _ _ h => (Option.not_mem_none _ h).elim⟩
    simpa using Value.Made.token ⟨rfl, rfl⟩
  · refine ⟨List.forall_mem_nil _, List.forall_mem_nil _, fun k hk x hx => ?_⟩
    rw [hmixins k hk] at hx
    exact (Option.not_mem_none _ hx).elim

/-- A mixin that defines and includes another one, between a variable and a use of it. -/
theorem included_inlined_nestedBody :
    (parseTokens 40 {} "" (included "m" [.bare .ident "a"] boundBefore nestedBody usedBehind)).1.isOk =
        true ∧
      SameOutcome
        (parseTokens 40 {} "" (included "m" [.bare .ident "a"] boundBefore nestedBody usedBehind)).1
        (parseTokens 40 {} "" (inlined [.bare .ident "a"] boundBefore nestedBody usedBehind)).1 := by
  obtain ⟨vs, hbody⟩ := exists_plainBody_nestedBody
  have hok : (parseTokens 40 {} ""
      (included "m" [.bare .ident "a"] boundBefore nestedBody usedBehind)).1.isOk = true := by
    cbv
  have hok' : (parseTokens 40 {} ""
      (inlined [.bare .ident "a"] boundBefore nestedBody usedBehind)).1.isOk = true := by
    cbv
  have hhead : RuleHead [.bare .ident "a"] [.token (.bare .ident "a")] := by
    refine ⟨Grouped.tokens_append [.bare .ident "a"] (by decide) .nil, ?_, ?_⟩
    · rintro v ⟨⟩
      decide
    · simp [Value.firstToken, Token.bare]
  have hends := endsInBlock_boundBefore (Bindings.set [] "m" ⟨none, vs⟩) fun k hk =>
    Bindings.find?_set_of_ne [] _ hk
  have hends' := endsInBlock_boundBefore [] fun _ _ => rfl
  have hcut {e : Except Stop Sheet} (he : e.isOk = true) : ∀ stop, e = .error stop → ¬ stop.IsCut := by
    rintro stop rfl
    cases he
  rcases included_inlined (k := 1) (n := 36) hhead hbody
    (by decide) (.of_single (by decide)) (.of_single (by decide)) (by decide) hends hends'
    (hcut hok) (hcut hok') with hsame | ⟨d, hfault, -⟩
  · exact ⟨hok, hsame⟩
  · rw [hfault] at hok
    cases hok

/-- A definition of a mixin with an empty list of parameters. -/
def nestedHead : List Token :=
  (tokenize "@mixin k() \x7b color: red; \x7d;").dropLast

theorem nestedHead_not_sameOutcome :
    ¬ SameOutcome
      (Sheet.parseTokens defaultBudget {} "" (included "m" [.bare .ident "a"] [] nestedHead [])).1
      (Sheet.parseTokens defaultBudget {} "" (inlined [.bare .ident "a"] [] nestedHead [])).1 := by
  obtain ⟨outcome, h⟩ : ∃ outcome, (Sheet.parseTokens defaultBudget {} ""
    (included "m" [.bare .ident "a"] [] nestedHead [])).1 = outcome := ⟨_, rfl⟩
  obtain ⟨outcome', h'⟩ : ∃ outcome, (Sheet.parseTokens defaultBudget {} ""
    (inlined [.bare .ident "a"] [] nestedHead [])).1 = outcome := ⟨_, rfl⟩
  rw [h, h']
  cbv at h h'
  subst h h'
  simp [SameOutcome]

end Sheet
end Cascade
