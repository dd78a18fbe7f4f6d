import Cascade.Proofs.Simulation

/-!
# The same mixins in both

Two readers that are alike define the same mixins and include the same instances.

**Method.**  A mixin that the first reader finds with its body grouped is captured
by the second one from its tokens; both bind the same body.  An instance is made
of the body and the arguments, so that it fits what is left to read where they do.

**Results.**
* `kindred_defineMixin`: a definition of a mixin, unless the first reader finds its
  head grouped.
* `kindred_includeMixins`: an inclusion of mixins.
-/

namespace Cascade

/-! ## Instances -/

section Instances

variable {p q : Token → Prop} {bound : Bindings (List Value)}

/-- The values that parameters are bound to. -/
def AllMade (p q : Token → Prop) (bound : Bindings (List Value)) : Prop :=
  ∀ e ∈ bound, ∀ v ∈ e.2, v.Made p q

theorem AllMade.set (h : AllMade p q bound) (name : String) {vs : List Value}
    (hvs : ∀ v ∈ vs, v.Made p q) :
    AllMade p q (bound.set name vs) := by
  intro e he
  rcases Bindings.of_mem_set he with rfl | he
  · exact hvs
  · exact h e he

theorem made_instantiate (hbound : AllMade p q bound) {v : Value} (h : v.Made p q) :
    ∀ u ∈ v.instantiate bound, u.Made p q := by
  induction h with
  | token ht =>
      intro u hu
      rw [Value.instantiate] at hu
      rw [List.mem_singleton.mp hu]
      exact .token ht
  | block _ ih =>
      intro u hu
      rw [Value.instantiate] at hu
      rw [List.mem_singleton.mp hu]
      refine .block fun w hw => ?_
      obtain ⟨v, hv, hwv⟩ := mem_instantiateAll hw
      exact ih v hv w hwv
  | call hname _ ih =>
      intro u hu
      rw [Value.instantiate] at hu
      rw [List.mem_singleton.mp hu]
      refine .call hname fun arg harg w hw => ?_
      obtain ⟨vs, hvs, rfl⟩ := mem_instantiateArguments harg
      obtain ⟨v, hv, hwv⟩ := mem_instantiateAll hw
      exact ih vs hvs v hv w hwv
  | @reference dollar name =>
      intro u hu
      rw [Value.instantiate] at hu
      cases hfind : bound.find? name.text with
      | none =>
          rw [hfind] at hu
          rw [List.mem_singleton.mp hu]
          exact .reference
      | some values =>
          rw [hfind] at hu
          exact hbound _ (Bindings.mem_of_find? hfind) u hu

theorem made_bindArguments (mixin : String) {ps : List Parameter} {args : List (List Value)}
    (hps : ∀ par ∈ ps, ∀ vs ∈ par.fallback, ∀ v ∈ vs, v.Made p q)
    (hargs : ∀ arg ∈ args, ∀ v ∈ arg, v.Made p q) (hbound : AllMade p q bound)
    {bound' : Bindings (List Value)} (h : bindArguments mixin ps args bound = .ok bound') :
    AllMade p q bound' := by
  induction ps generalizing args bound with
  | nil =>
      cases h
      exact hbound
  | cons par ps ih =>
      have hps' : ∀ par ∈ ps, ∀ vs ∈ par.fallback, ∀ v ∈ vs, v.Made p q :=
        fun par hpar => hps par (List.mem_cons_of_mem _ hpar)
      have htail : ∀ arg ∈ args.tail, ∀ v ∈ arg, v.Made p q :=
        fun arg harg => hargs arg (List.mem_of_mem_tail harg)
      have hhead : ∀ v ∈ trimWhitespace (args.headD []), v.Made p q := by
        intro v hv
        have hv := mem_of_mem_trimWhitespace hv
        cases args with
        | nil => cases hv
        | cons arg args => exact hargs arg List.mem_cons_self v hv
      unfold bindArguments at h
      split at h
      · cases h
      · next value _ hvalue =>
          exact ih hps' htail (hbound.set _ (hps par List.mem_cons_self value hvalue)) h
      · exact ih hps' htail (hbound.set _ hhead) h

/-- An instance is made of the mixin and the arguments. -/
theorem made_of_instantiate {m : Mixin} (hm : m.Made p q) {name : String}
    {args : List (List Value)} (hargs : ∀ arg ∈ args, ∀ v ∈ arg, v.Made p q) {body : List Value}
    (h : m.instantiate name args = .ok body) :
    ∀ v ∈ body, v.Made p q := by
  unfold Mixin.instantiate at h
  simp only at h
  split at h
  · cases h
  · cases hbound : bindArguments name m.parameterList args [] with
    | error cause =>
        rw [hbound] at h
        cases h
    | ok bound =>
        rw [hbound] at h
        cases h
        have hmade := made_bindArguments name hm.fallbacks hargs
          (fun _ he => (List.not_mem_nil he).elim) hbound
        intro u hu
        obtain ⟨v, hv, huv⟩ := mem_instantiateAll hu
        exact made_instantiate hmade (hm.body v hv) u huv

end Instances

namespace Read

variable {p : Pairing} {r s t u : Reader} {l : List Item} {v : Value}

theorem kindred_instantiate (h : Alike p r s) {name : Token} (hname : name.text ≠ p.mixin)
    {args : List (List Value)} (hargs : ∀ arg ∈ args, ∀ v ∈ arg, Fits p r.cursor.items v) :
    Kindred p r.cursor.items (fun l a b => l = r.cursor.items ∧ SameValues p l a b)
      (instantiate name args r) (instantiate name args s) := by
  unfold instantiate
  refine .look ?_
  simp only [h.scopes.findMixin? hname]
  cases hfind : r.scopes.findMixin? name.text with
  | none => exact .fail rfl
  | some x =>
      dsimp only
      cases hbody : x.instantiate name.text args with
      | error cause => exact .fail rfl
      | ok body =>
          refine .pure h ⟨rfl, rfl, fun v hv => ⟨?_, fun hown => ?_⟩⟩
          · exact made_of_instantiate (made_of_findMixin? hname h.scopes.clean hfind)
              (fun arg harg v hv => (hargs arg harg v hv).1) hbody v hv
          · exact made_of_instantiate (made_of_findMixin? hname (h.calm hown) hfind)
              (fun arg harg v hv => (hargs arg harg v hv).2 hown) hbody v hv

/-! ## Definitions -/

theorem ends_fallbackEnd :
    Ends p False fallbackEnd (SameValues p) := by
  intro read r s h _ hread
  unfold fallbackEnd
  refine .peek ?_
  cases h.front with
  | ended hr hs =>
      simp only [hr, hs]
      exact .pure h (sameValues_trim hread)
  | @same v hfront =>
      simp only [hfront.left, hfront.right]
      split
      · exact .pure h (sameValues_trim hread)
      · exact .pure h False.elim
  | group hfront =>
      obtain ⟨o, hs, hopener⟩ := hfront.opener
      have hcomma : (Value.token o).hasType .comma = false := hasType_of_opener hopener rfl
      have hparen : (Value.token o).hasType .closeParen = false := hasType_of_opener hopener rfl
      simp only [hfront.left, hs, hfront.raw.hasType, hcomma, hparen]
      exact .pure h False.elim

/-- The defaults of the parameters fit what is left to read. -/
def FitParameters (p : Pairing) (l : List Item) (ps : List Parameter) : Prop :=
  ∀ par ∈ ps, ∀ vs ∈ par.fallback, ∀ v ∈ vs, Fits p l v

/-- Both readers read the same parameters. -/
def SameParameters (p : Pairing) (l : List Item) (a b : List Parameter) : Prop :=
  b = a ∧ FitParameters p l a

theorem FitParameters.mono {ps : List Parameter} {k : List Item} (h : FitParameters p l ps)
    (hown : Owned p.mixin k → Owned p.mixin l) :
    FitParameters p k ps :=
  fun par hpar vs hvs v hv => (h par hpar vs hvs v hv).mono hown

theorem FitParameters.cons {ps : List Parameter} {par : Parameter} (h : FitParameters p l ps)
    (hpar : ∀ vs ∈ par.fallback, ∀ v ∈ vs, Fits p l v) :
    FitParameters p l (par :: ps) := by
  intro x hx
  rcases List.mem_cons.mp hx with rfl | hx
  · exact hpar
  · exact h x hx

/-- A parameter has been read: a comma or the closing parenthesis follows. -/
theorem kindred_moreParameters {mixin : Token} {n n' : Nat} {seenDefault : Bool}
    {read : List Parameter} (h : Alike p r s) (hread : FitParameters p r.cursor.items read)
    (ih : ∀ {r s : Reader}, Alike p r s → FitParameters p r.cursor.items read →
      Kindred p r.cursor.items (SameParameters p) (parameters mixin n seenDefault read r)
        (parameters mixin n' seenDefault read s)) :
    Kindred p r.cursor.items (SameParameters p)
      ((do
        skipWhitespace
        if ← peek (·.check 0 .comma) then
          let _ ← next
          parameters mixin n seenDefault read
        else if ← peek (·.check 0 .closeParen) then
          parameters mixin n seenDefault read
        else
          failAt 0 .parameterSeparator : Read (List Parameter)) r)
      ((do
        skipWhitespace
        if ← peek (·.check 0 .comma) then
          let _ ← next
          parameters mixin n' seenDefault read
        else if ← peek (·.check 0 .closeParen) then
          parameters mixin n' seenDefault read
        else
          failAt 0 .parameterSeparator : Read (List Parameter)) s) := by
  refine .skip h fun {t u} halike hown => .peek ?_
  have hread := hread.mono hown
  simp only [halike.check (show TokenType.comma.closer? = none from rfl)]
  split
  · next hcomma =>
      obtain ⟨v, hfront⟩ := halike.sameFront_of_check hcomma
      refine (kindred_next hfront).bind ?_
      rintro _ _ w x - halike hown
      exact ih halike (hread.mono hown)
  · refine .peek ?_
    simp only [halike.check (show TokenType.closeParen.closer? = none from rfl)]
    split
    · exact ih halike hread
    · exact .failAt rfl

theorem kindred_parameters (mixin : Token) :
    ∀ {n n' : Nat} {seenDefault : Bool} {read : List Parameter} {r s : Reader}, Alike p r s →
      FitParameters p r.cursor.items read →
      Kindred p r.cursor.items (SameParameters p) (parameters mixin n seenDefault read r)
        (parameters mixin n' seenDefault read s)
  | 0, _, _, _, _, _, _, _ => .exhausted_left
  | _ + 1, 0, _, _, _, _, _, _ => .exhausted_right
  | n + 1, n' + 1, seenDefault, read, r, s, h, hread => by
      rw [parameters, parameters]
      refine .skip h fun {t u} halike hown => .peek ?_
      have hread := hread.mono hown
      simp only [halike.atEnd]
      split
      · exact .failAt rfl
      refine .peek ?_
      simp only [halike.check (show TokenType.closeParen.closer? = none from rfl)]
      split
      · next hparen =>
          obtain ⟨v, hfront⟩ := halike.sameFront_of_check hparen
          refine (kindred_next hfront).bind ?_
          rintro _ _ w x - halike hown
          exact .pure halike ⟨rfl, fun par hpar => (hread.mono hown) par (List.mem_reverse.mp hpar)⟩
      refine (kindred_expects (expects_consumeDelim _ _) halike).bind ?_
      rintro _ _ w x - halike hown
      have hread := hread.mono hown
      refine (kindred_expects (expects_consume _ rfl) halike).bind ?_
      rintro _ name w x ⟨rfl, _, _⟩ halike hown
      have hread := hread.mono hown
      refine .skip halike fun {t u} halike hown => .peek ?_
      have hread := hread.mono hown
      simp only [halike.checkDelim, halike.check (show TokenType.colon.closer? = none from rfl)]
      split
      · next hdefault =>
          obtain ⟨v, hfront⟩ : ∃ v, SameFront p t u v := by
            rcases Bool.or_eq_true_iff.mp hdefault with hsign | hcolon
            · exact halike.sameFront_of_checkDelim hsign
            · exact halike.sameFront_of_check hcolon
          refine (kindred_next hfront).bind ?_
          rintro _ _ w x - halike hown
          have hread := hread.mono hown
          refine ((kindred_values p n).collect ends_fallbackEnd halike False.elim
            fun _ hv => (List.not_mem_nil hv).elim).bind ?_
          rintro _ values w x ⟨rfl, hvalues⟩ halike hown
          refine kindred_moreParameters halike ((hread.mono hown).cons ?_)
            fun halike hread => kindred_parameters mixin halike hread
          rintro _ ⟨⟩
          exact hvalues
      · split
        · exact .same rfl
        · exact kindred_moreParameters halike
            (hread.cons fun _ hvs => (Option.not_mem_none _ hvs).elim)
            fun halike hread => kindred_parameters mixin halike hread

/-- Both readers read the same head of a mixin. -/
def SameHead (p : Pairing) (l : List Item) (a b : Token × Option (List Parameter)) : Prop :=
  b = a ∧ a.1.text ≠ p.mixin ∧ FitParameters p l (a.2.getD [])

theorem kindred_mixinHead (h : Alike p r s) (n n' : Nat) :
    Kindred p r.cursor.items (SameHead p) (mixinHead n r) (mixinHead n' s) := by
  have hrefused : Kindred p r.cursor.items (SameHead p) (failAt 0 .mixinName r)
      (failAt 0 .mixinName s) :=
    .failAt rfl
  unfold mixinHead
  refine .peek ?_
  unfold Cursor.peekToken
  cases h.front with
  | ended hr hs =>
      simp only [hr, hs]
      exact hrefused
  | @same v hfront =>
      simp only [hfront.left, hfront.right]
      cases v with
      | token t =>
          have hclean := clean_of_fits hfront.behind.fits
          dsimp only
          by_cases hident : t.type = .ident
          · simp only [hident, if_true]
            refine (kindred_next hfront).bind ?_
            rintro _ _ w x - halike hown
            exact .pure halike ⟨rfl, hclean (.inl hident), fun _ hpar => (List.not_mem_nil hpar).elim⟩
          · simp only [hident]
            by_cases hfunction : t.type = .function
            · simp only [hfunction, if_true]
              refine (kindred_next hfront).bind ?_
              rintro _ _ w x - halike hown
              refine (kindred_parameters t halike fun _ hpar => (List.not_mem_nil hpar).elim).bind ?_
              rintro _ ps w x ⟨rfl, hps⟩ halike hown
              exact .pure halike ⟨rfl, hclean (.inr hfunction), hps⟩
            · simp only [hfunction]
              exact hrefused
      | _ => exact hrefused
  | group hfront =>
      -- The first reader finds no token here: the second one may read the head of a call, but no
      -- block is a head.
      have hleft := hfront.left
      obtain ⟨lead, hlead, hitems⟩ := hfront.right
      cases hfront.raw with
      | @call name closer inner us hname hparen hinner =>
          simp only [hleft, callOf, Call.toValue]
          refine .excused (.inr ⟨hfront.grouping, rfl, ?_⟩)
          change ((r.cursor.peek 0).map Value.witness).map Token.text = _
          rw [hleft]
          rfl
      | @block opener closer inner us hpartner hinner =>
          rw [tokenItems_group] at hitems
          have hident : opener.type ≠ .ident := by
            intro ht
            simp [ht, TokenType.partner?] at hpartner
          have hfunction : opener.type ≠ .function := by
            intro ht
            simp [ht, TokenType.partner?] at hpartner
          simp only [hleft, Cursor.peek_of_blank hlead hitems, if_neg hident, if_neg hfunction]
          exact hrefused

theorem fits_contents {opener : Token} {vs : List Value} {closer : Option Token}
    (h : Fits p l (.block opener vs closer)) :
    ∀ v ∈ vs, Fits p l v := by
  intro v hv
  refine ⟨?_, fun hown => ?_⟩
  · cases h.1 with
    | block hclean => exact hclean v hv
  · cases h.2 hown with
    | block hcalm => exact hcalm v hv

/-- The mixin is bound, with its head and its body. -/
theorem kindred_setMixin (h : Alike p r s) {head : Token × Option (List Parameter)}
    (hname : head.1.text ≠ p.mixin) (hps : FitParameters p r.cursor.items (head.2.getD []))
    {body : List Value} (hbody : ∀ v ∈ body, Fits p r.cursor.items v) (k : Nat) :
    Kindred p r.cursor.items (fun _ _ _ => True)
      ((do
        updateScopes (·.setMixin head.1.text ⟨head.2, body⟩)
        record (.mixinDefined head.1.text k head.1.position.line) : Read Unit) r)
      ((do
        updateScopes (·.setMixin head.1.text ⟨head.2, body⟩)
        record (.mixinDefined head.1.text k head.1.position.line) : Read Unit) s) := by
  have hclean : Mixin.Made (Token.Clean p.mixin) (·.text ≠ p.mixin) ⟨head.2, body⟩ :=
    ⟨fun v hv => (hbody v hv).1, fun par hpar vs hvs v hv => (hps par hpar vs hvs v hv).1⟩
  have hcalm (hown : Owned p.mixin r.cursor.items) :
      Mixin.Made Token.Calm (fun _ => True) ⟨head.2, body⟩ :=
    ⟨fun v hv => (hbody v hv).2 hown, fun par hpar vs hvs v hv => (hps par hpar vs hvs v hv).2 hown⟩
  have hset : Kindred p r.cursor.items (fun l _ _ => l = r.cursor.items)
      (updateScopes (·.setMixin head.1.text ⟨head.2, body⟩) r)
      (updateScopes (·.setMixin head.1.text ⟨head.2, body⟩) s) :=
    .ok rfl (h.setMixin hname hclean hcalm) id
  refine hset.bind ?_
  rintro _ _ t u - halike _
  exact (Kindred.record halike).mono (fun _ _ _ _ => trivial) id

theorem kindred_defineMixin (h : Alike p r s) (n n' : Nat) :
    Kindred p r.cursor.items (fun _ _ _ => True) (defineMixin n r) (defineMixin n' s) := by
  unfold defineMixin
  refine .skip h fun {t u} halike _ => ?_
  refine (kindred_mixinHead halike n n').bind ?_
  rintro _ head t u ⟨rfl, hname, hps⟩ halike _
  refine .skip halike fun {t' u'} halike hown => .peek ?_
  have hps := hps.mono hown
  cases halike.front with
  | ended hr hs =>
      simp only [hr, hs]
      exact .same rfl
  | @same v hfront =>
      simp only [hfront.left, hfront.right]
      cases v with
      | token o =>
          dsimp only
          by_cases hbrace : o.type = .openBrace
          · simp only [hbrace, if_true]
            have hsteady (n : Nat) : Steady (block n) := (steady_values n).block
            have hopener : o.type.isOpener = true := by
              rw [hbrace]
              rfl
            refine (Kindred.capturing (R := SameBlock p) _ (hsteady n) (hsteady n') halike ?_).bind ?_
            · intro w x halike' hw _
              have hfront' : SameFront p w x (.token o) := by
                refine halike'.sameFront_of_token ?_
                rw [hw]
                exact hfront.left
              rw [← hw]
              exact ((kindred_values p n).block hfront' hopener).widen hfront'.behind.owned
            · rintro _ b w x ⟨rfl, hb⟩ halike hown
              exact kindred_setMixin halike hname (hps.mono hown) (fits_contents hb) _
          · simp only [hbrace]
            exact .same rfl
      | block opener contents closer =>
          dsimp only
          split
          · refine (kindred_next hfront).bind ?_
            rintro _ _ w x ⟨hl, -, -⟩ halike hown
            refine kindred_setMixin halike hname (hps.mono hown) ?_ _
            rw [hl]
            exact fits_contents hfront.behind.fits
          · exact .same rfl
      | _ => exact .same rfl
  | group hfront =>
      have hleft := hfront.left
      obtain ⟨lead, hlead, hitems⟩ := hfront.right
      cases hfront.raw with
      | @call function closer inner us hfunction hparen hinner =>
          rw [tokenItems_group] at hitems
          have hbrace : function.type ≠ .openBrace := by
            rw [hfunction]
            exact nofun
          simp only [hleft, callOf, Call.toValue, Cursor.peek_of_blank hlead hitems, if_neg hbrace]
          exact .same rfl
      | @block opener closer inner us hpartner hinner =>
          rw [tokenItems_group] at hitems
          simp only [hleft, Cursor.peek_of_blank hlead hitems]
          by_cases hbrace : opener.type = .openBrace
          · simp only [hbrace, if_true]
            have htakes (names : List String) :
                Takes (capturing names (block n')) u' ⟨opener, us, some closer⟩ _ :=
              .capturing names fun w hw => takes_block_of hpartner (regroups hinner)
                hinner.firstToken_not_closer hlead (by rw [hw]; exact hitems) n'
            refine .behind_takes (next_of_peek hleft) (htakes _) hfront.behind.owned ?_
            intro w hw hwscopes
            have halike := hfront.passed hw hwscopes
            refine kindred_setMixin halike hname (hps.mono hfront.behind.owned) ?_ _
            exact fits_contents hfront.behind.fits
          · simp only [hbrace]
            exact .same rfl

/-! ## Inclusions -/

/-- The instances fit what is left to read, and none of them is one of the mixin. -/
def FitTargets (p : Pairing) (l : List Item) (found : List (String × List Value)) : Prop :=
  ∀ e ∈ found, e.1 ≠ p.mixin ∧ ∀ v ∈ e.2, Fits p l v

/-- Both readers find the same instances. -/
def SameTargets (p : Pairing) (l : List Item) (a b : List (String × List Value)) : Prop :=
  b = a ∧ FitTargets p l a

theorem FitTargets.mono {found : List (String × List Value)} {k : List Item}
    (h : FitTargets p l found) (hown : Owned p.mixin k → Owned p.mixin l) :
    FitTargets p k found :=
  fun e he => ⟨(h e he).1, fun v hv => ((h e he).2 v hv).mono hown⟩

theorem FitTargets.cons {found : List (String × List Value)} {name : String} {body : List Value}
    (h : FitTargets p l found) (hname : name ≠ p.mixin) (hbody : ∀ v ∈ body, Fits p l v) :
    FitTargets p l ((name, body) :: found) := by
  intro e he
  rcases List.mem_cons.mp he with rfl | he
  · exact ⟨hname, hbody⟩
  · exact h e he

theorem text_ne_of_fits {name : Token} {args : List (List Value)} {commas : List Token}
    {closer : Option Token} (h : Fits p l (.call name args commas closer)) :
    name.text ≠ p.mixin := by
  cases h.1 with
  | call hname _ => exact hname

theorem fits_arguments {name : Token} {args : List (List Value)} {commas : List Token}
    {closer : Option Token} (h : Fits p l (.call name args commas closer)) :
    ∀ arg ∈ args, ∀ v ∈ arg, Fits p l v := by
  intro arg harg v hv
  refine ⟨?_, fun hown => ?_⟩
  · cases h.1 with
    | call _ hclean => exact hclean arg harg v hv
  · cases h.2 hown with
    | call _ hcalm => exact hcalm arg harg v hv

/-- One more target: its instance is made, and the list goes on. -/
theorem kindred_target {n n' : Nat} {found : List (String × List Value)} {name : Token}
    {args : List (List Value)} (h : Alike p r s) (hname : name.text ≠ p.mixin)
    (hargs : ∀ arg ∈ args, ∀ v ∈ arg, Fits p r.cursor.items v)
    (hfound : FitTargets p r.cursor.items found)
    (ih : ∀ {found : List (String × List Value)} {r s : Reader}, Alike p r s →
      FitTargets p r.cursor.items found →
      Kindred p r.cursor.items (SameTargets p) (targets n found r) (targets n' found s)) :
    Kindred p r.cursor.items (SameTargets p)
      ((do
        let body ← instantiate name args
        targets n ((name.text, body) :: found) : Read _) r)
      ((do
        let body ← instantiate name args
        targets n' ((name.text, body) :: found) : Read _) s) := by
  refine (kindred_instantiate h hname hargs).bind ?_
  rintro _ body t u ⟨-, rfl, hbody⟩ halike hown
  exact ih halike ((hfound.mono hown).cons hname hbody)

theorem kindred_targets :
    ∀ {n n' : Nat} {found : List (String × List Value)} {r s : Reader}, Alike p r s →
      FitTargets p r.cursor.items found →
      Kindred p r.cursor.items (SameTargets p) (targets n found r) (targets n' found s)
  | 0, _, _, _, _, _, _ => .exhausted_left
  | _ + 1, 0, _, _, _, _, _ => .exhausted_right
  | n + 1, n' + 1, found, r, s, h, hfound => by
      rw [targets, targets]
      refine .skip h fun {t u} halike hown => .peek ?_
      have hfound := hfound.mono hown
      cases halike.front with
      | ended hr hs =>
          simp only [hr, hs]
          exact .pure halike ⟨rfl, hfound⟩
      | @same v hfront =>
          simp only [hfront.left, hfront.right]
          cases v with
          | token o =>
              have hclean := clean_of_fits hfront.behind.fits
              dsimp only
              split
              · refine (kindred_next hfront).bind ?_
                rintro _ _ w x - halike hown
                exact .pure halike ⟨rfl, hfound.mono hown⟩
              split
              · refine (kindred_next hfront).bind ?_
                rintro _ _ w x - halike hown
                exact kindred_targets halike (hfound.mono hown)
              split
              · next hident =>
                  refine (kindred_next hfront).bind ?_
                  rintro _ _ w x - halike hown
                  exact kindred_target halike (hclean (.inl hident))
                    (fun _ harg => (List.not_mem_nil harg).elim) (hfound.mono hown) kindred_targets
              split
              · next hfunction =>
                  refine (((kindred_values p n).call hfront hfunction).widen
                    hfront.behind.owned).bind ?_
                  rintro _ c w x ⟨rfl, hc, hname⟩ halike hown
                  exact kindred_target halike hname (fits_arguments hc) (hfound.mono hown)
                    kindred_targets
              · exact .failAt rfl
          | call name args commas closer =>
              refine (kindred_next hfront).bind ?_
              rintro _ _ w x ⟨hl, -, -⟩ halike hown
              refine kindred_target halike (text_ne_of_fits hfront.behind.fits) ?_ (hfound.mono hown) kindred_targets
              rw [hl]
              exact fits_arguments hfront.behind.fits
          | _ => exact .failAt rfl
      | group hfront =>
          have hleft := hfront.left
          obtain ⟨lead, hlead, hitems⟩ := hfront.right
          cases hfront.raw with
          | @block opener closer inner us hpartner hinner =>
              rw [tokenItems_group] at hitems
              simp only [hleft, Cursor.peek_of_blank hlead hitems]
              have hopener : opener.type ≠ .semicolon ∧ opener.type ≠ .comma ∧
                  opener.type ≠ .ident ∧ opener.type ≠ .function := by
                cases htype : opener.type <;> simp_all [TokenType.partner?]
              simp only [if_neg hopener.1, if_neg hopener.2.1, if_neg hopener.2.2.1,
                if_neg hopener.2.2.2]
              exact .failAt rfl
          | @call name closer inner us hname hparen hinner =>
              rw [tokenItems_group] at hitems
              simp only [hleft, callOf, Call.toValue, Cursor.peek_of_blank hlead hitems, hname]
              have hfits := hfront.behind.fits
              refine .behind_takes (next_of_peek hleft)
                (takes_call_of hname hparen (regroups hinner) hlead hitems n') hfront.behind.owned ?_
              intro w hw hwscopes
              have halike := hfront.passed hw hwscopes
              exact kindred_target halike (text_ne_of_fits hfits) (fits_arguments hfits)
                (hfound.mono hfront.behind.owned) kindred_targets

theorem kindred_expand {found : List (String × List Value)} (h : Alike p r s)
    (hfound : FitTargets p r.cursor.items found) :
    Kindred p r.cursor.items (fun _ _ _ => True) (expand found r) (expand found s) := by
  induction found generalizing r s with
  | nil => exact .pure h trivial
  | cons target found ih =>
      obtain ⟨name, body⟩ := target
      obtain ⟨hname, hbody⟩ := hfound _ List.mem_cons_self
      have hown (hl : Owned p.mixin (r.cursor.spliceExpansion name body).items) :
          Owned p.mixin r.cursor.items := by
        rcases List.mem_cons.mp (owned_values_append.mp hl) with heq | hl
        · cases heq
          exact (hname rfl).elim
        · exact hl
      have hsplice : Kindred p r.cursor.items
          (fun l _ _ => l = (r.cursor.spliceExpansion name body).items)
          (spliceExpansion name body r) (spliceExpansion name body s) :=
        .ok rfl (h.spliceExpansion hname hbody) hown
      rw [expand]
      refine hsplice.bind ?_
      rintro _ _ t u ht halike _
      refine .peek ((Kindred.record halike).bind ?_)
      rintro _ _ w x hw halike _
      refine ih halike ?_
      rw [hw, ht]
      exact FitTargets.mono (fun e he => hfound e (List.mem_cons_of_mem _ he)) hown

theorem kindred_includeMixins (h : Alike p r s) (n n' : Nat) (keyword : Token) :
    Kindred p r.cursor.items (fun _ _ _ => True) (includeMixins n keyword r)
      (includeMixins n' keyword s) := by
  unfold includeMixins
  refine (kindred_targets h fun _ he => (List.not_mem_nil he).elim).bind ?_
  rintro _ found t u ⟨rfl, hfound⟩ halike _
  cases found.getLast? with
  | none => exact .fail rfl
  | some first =>
      refine .look (.peek ?_)
      -- The first reader may be one mixin deeper, so that either one may be stopped alone.
      split
      · exact .excused (.inl rfl)
      · split
        · exact .cut rfl
        · exact kindred_expand halike hfound

end Read
end Cascade
