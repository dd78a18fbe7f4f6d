import Cascade.Proofs.MixinSimulation

/-!
# The same statements in both

Two readers that are alike read the same statements and the same bodies.

**Method.**  The block of a rule is grouped for the first reader where it is flat for
the second one; the contents of the two are `Kin`, which is all that reading them
asks for.  A declaration and a skipped statement may end where the body of a mixin
ends: since they end before the mixin of the comparison does, both readers see the
same end.

**Results.**
* `kindred_atRule`, `kindred_qualifiedRule`, `kindred_nextRule`: rules.
* `kindred_declaration`, `kindred_skipStatement`: the other statements.
* `kindred_bodies`: the entries of style blocks, rule lists and keyframes.
-/

namespace Cascade

/-- The blocks have the same brackets, and reading the contents gives the same. -/
structure KinBlock (p : Pairing) (a b : Block) : Prop where
  opener : b.opener = a.opener
  closer : b.closer = a.closer
  contents : Kin p (a.contents.map .value) (b.contents.map .value)
  clean : ∀ v ∈ a.contents, v.Clean p.mixin

structure KinAtRule (p : Pairing) (a b : AtRule) : Prop where
  name : b.name = a.name
  prelude : b.prelude = a.prelude
  block : Option.Rel (KinBlock p) a.block b.block

structure KinQualified (p : Pairing) (a b : QualifiedRule) : Prop where
  prelude : b.prelude = a.prelude
  block : KinBlock p a.block b.block

theorem KinAtRule.resolved {p : Pairing} {a b : AtRule} (h : KinAtRule p a b) (body : List Entry) :
    b.resolved body = a.resolved body := by
  unfold AtRule.resolved
  have hblock := h.block
  revert hblock
  cases a.block with
  | none =>
      intro hblock
      cases hb : b.block with
      | none => simp [h.name, h.prelude]
      | some y =>
          rw [hb] at hblock
          cases hblock
  | some x =>
      intro hblock
      cases hb : b.block with
      | none =>
          rw [hb] at hblock
          cases hblock
      | some y =>
          rw [hb] at hblock
          cases hblock with
          | some hxy => simp [h.name, h.prelude, hxy.opener, hxy.closer]

namespace Read

variable {α β : Type} {p : Pairing} {r s t u : Reader} {l : List Item} {v : Value}

/-! ## Flat blocks -/

/-- Contents collected so far, in reverse. -/
structure KinRead (p : Pairing) (read read' : List Value) : Prop where
  kin : Kin p (read.reverse.map .value) (read'.reverse.map .value)
  clean : ∀ v ∈ read, v.Clean p.mixin

theorem KinRead.push {read read' : List Value} (h : KinRead p read read') (hv : v.Clean p.mixin)
    {vs : List Value} (hkin : Kin p [.value v] (vs.map .value)) :
    KinRead p (v :: read) (vs.reverse ++ read') := by
  refine ⟨?_, ?_⟩
  · have happend := h.kin.append hkin
    simpa using happend
  · intro w hw
    rcases List.mem_cons.mp hw with rfl | hw
    · exact hv
    · exact h.clean w hw

theorem KinRead.cons {read read' : List Value} (h : KinRead p read read') (hv : v.Clean p.mixin) :
    KinRead p (v :: read) (v :: read') := by
  have hpush := h.push hv (show Kin p [.value v] ([v].map .value) from .value .nil)
  simpa using hpush

theorem KinRead.close {read read' : List Value} (h : KinRead p read read') (opener : Token)
    (closer : Option Token) :
    KinBlock p ⟨opener, read.reverse, closer⟩ ⟨opener, read'.reverse, closer⟩ :=
  ⟨rfl, rfl, h.kin, fun v hv => h.clean v (List.mem_reverse.mp hv)⟩

theorem isCloser_dueAfter {due : List TokenType} (h : ∀ type ∈ due, type.isCloser = true) (t : Token) :
    ∀ type ∈ Scan.dueAfter t due, type.isCloser = true := by
  unfold Scan.dueAfter
  cases hcloser : t.type.closer? with
  | some closer =>
      intro type htype
      rcases List.mem_cons.mp htype with rfl | htype
      · exact TokenType.isCloser_of_closer? hcloser
      · exact h type htype
  | none =>
      dsimp only
      split
      · exact fun type htype => h type (List.mem_of_mem_tail htype)
      · exact h

theorem kindred_rawContents {opener : Token} {closer : TokenType} (hcloser : closer.isCloser = true)
    {n n' : Nat} {due : List TokenType} {read read' : List Value} (h : Alike p r s)
    (hn : r.cursor.items.length < n) (hn' : s.cursor.items.length < n')
    (hdue : ∀ type ∈ due, type.isCloser = true) (hread : KinRead p read read') :
    Kindred p r.cursor.items (fun _ a b => KinBlock p a b)
      (scan (Scan.rawContents opener closer n due read) r)
      (scan (Scan.rawContents opener closer n' due read') s) := by
  induction n generalizing n' due read read' r s with
  | zero => omega
  | succ n ih =>
      obtain ⟨n', rfl⟩ : ∃ k, n' = k + 1 := ⟨n' - 1, by omega⟩
      cases h.front with
      | ended hr hs =>
          rw [scan_rawContents_none hr, scan_rawContents_none hs]
          refine .ok (hread.close _ _) (alike_next_of_end h hr hs) ?_
          intro hown
          change Owned p.mixin r.cursor.next.2.items at hown
          rw [(Cursor.items_next_of_end hr).2] at hown
          cases hown
      | @same v hfront =>
          have hlength := Cursor.length_next_lt hfront.left
          have hlength' := Cursor.length_next_lt hfront.right
          have hmore {due' : List TokenType} (hdue' : ∀ type ∈ due', type.isCloser = true) :
              Kindred p r.cursor.items (fun _ a b => KinBlock p a b)
                (scan (Scan.rawContents opener closer n due' (v :: read))
                  { r with cursor := r.cursor.next.2 })
                (scan (Scan.rawContents opener closer n' due' (v :: read'))
                  { s with cursor := s.cursor.next.2 }) := by
            refine (ih hfront.passed ?_ ?_ hdue' (hread.cons hfront.behind.fits.1)).widen
              hfront.behind.owned
            · change r.cursor.next.2.items.length < n
              omega
            · change s.cursor.next.2.items.length < n'
              omega
          rw [scan_rawContents_some hfront.left, scan_rawContents_some hfront.right]
          cases v with
          | token t =>
              dsimp only
              split
              · exact .ok (hread.close _ _) hfront.passed hfront.behind.owned
              · exact hmore (isCloser_dueAfter hdue t)
          | _ => exact hmore hdue
      | @group g ts rest hfront =>
          -- The first reader takes the group in one step, the second one its tokens one by one.
          obtain ⟨lead, hlead, hitems⟩ := hfront.right
          have hne : ts ≠ [] := by
            obtain ⟨o, inner, rfl, _⟩ := hfront.raw.exists_opener
            exact List.cons_ne_nil _ _
          obtain ⟨w, hw, hwscopes, hrun⟩ := scan_rawContents_balanced hcloser hfront.raw.balanced
            hlead (.inr hne) hdue hitems
          have hlength := Cursor.length_next_lt hfront.left
          have hlength' : s.cursor.items.length = lead.length + (ts.length + rest.length) := by
            rw [hitems]
            simp [tokenItems]
          obtain ⟨k, hk⟩ : ∃ k, n' + 1 = ts.length + k := ⟨n' + 1 - ts.length, by omega⟩
          have hgroup : Kin p [.value g] ((ts.map Value.token).map .value) := by
            have hkin := Kin.group hfront.grouping hfront.raw .nil
            simpa [tokenItems, Function.comp_def] using hkin
          have hstep : scan (Scan.rawContents opener closer (n + 1) due read) r =
              scan (Scan.rawContents opener closer n due (g :: read))
                { r with cursor := r.cursor.next.2 } := by
            rw [scan_rawContents_some hfront.left]
            cases hfront.raw with
            | block => rfl
            | call => rfl
          rw [hk, hrun, hstep]
          refine (ih (hfront.passed hw hwscopes) ?_ ?_ hdue
            (hread.push hfront.behind.fits.1 hgroup)).widen hfront.behind.owned
          · change r.cursor.next.2.items.length < n
            omega
          · rw [hw]
            omega

/-- The flat block that both readers are at. -/
theorem kindred_rawBlock {o : Token} (hfront : SameFront p r s (.token o))
    (hopener : o.type.isOpener = true) :
    Kindred p r.cursor.items (fun _ a b => KinBlock p a b) (scan Scan.rawBlock r)
      (scan Scan.rawBlock s) := by
  obtain ⟨closer, hcloser⟩ := Option.isSome_iff_exists.mp hopener
  rw [scan_rawBlock hfront.left hcloser, scan_rawBlock hfront.right hcloser]
  refine (kindred_rawContents (TokenType.isCloser_of_partner? hcloser) hfront.passed
    (Nat.lt_succ_self _) (Nat.lt_succ_self _) (fun _ h => (List.not_mem_nil h).elim) ?_).widen
    hfront.behind.owned
  exact ⟨.nil, fun _ h => (List.not_mem_nil h).elim⟩

/-! ## Rules -/

/-- A block that both readers find grouped. -/
theorem kinBlock_refl {opener : Token} {contents : List Value} {closer : Option Token}
    (h : Fits p l (.block opener contents closer)) :
    KinBlock p ⟨opener, contents, closer⟩ ⟨opener, contents, closer⟩ :=
  ⟨rfl, rfl, .refl (not_owned_values contents), fun v hv => (fits_contents h v hv).1⟩

/-- A block that the first reader finds grouped. -/
theorem kinBlock_grouped (hgrouping : p.grouping) {opener closer : Token} {inner : List Token}
    {us : List Value} (hinner : Grouped inner us) (h : Fits p l (.block opener us (some closer))) :
    KinBlock p ⟨opener, us, some closer⟩ ⟨opener, inner.map .token, some closer⟩ := by
  refine ⟨rfl, rfl, ?_, fun v hv => (fits_contents h v hv).1⟩
  have hkin := Kin.of_grouped hgrouping hinner
  simpa [tokenItems, Function.comp_def] using hkin

theorem ends_atRuleEnd (name : Token) :
    Ends p False (atRuleEnd name) (fun _ a b => KinAtRule p a b) := by
  intro read r s h _ hread
  have hmore : Kindred p r.cursor.items (SameEnd p False fun _ a b => KinAtRule p a b)
      ((pure none : Read (Option AtRule)) r) ((pure none : Read (Option AtRule)) s) :=
    .pure h False.elim
  unfold atRuleEnd
  refine .peek ?_
  cases h.front with
  | ended hr hs =>
      simp only [hr, hs]
      exact .pure h ⟨rfl, rfl, .none⟩
  | @same v hfront =>
      simp only [hfront.left, hfront.right]
      cases v with
      | token o =>
          dsimp only
          split
          · refine (kindred_next hfront).bind ?_
            rintro _ _ w x - halike _
            exact .pure halike ⟨rfl, rfl, .none⟩
          · split
            · next hbrace =>
                have hopener : o.type.isOpener = true := by
                  rw [hbrace]
                  rfl
                refine (kindred_rawBlock hfront hopener).bind ?_
                rintro _ _ w x hblock halike _
                exact .pure halike ⟨rfl, rfl, .some hblock⟩
            · exact hmore
      | block opener contents closer =>
          dsimp only
          split
          · refine (kindred_next hfront).bind ?_
            rintro _ _ w x - halike _
            exact .pure halike ⟨rfl, rfl, .some (kinBlock_refl hfront.behind.fits)⟩
          · exact hmore
      | _ => exact hmore
  | group hfront =>
      have hleft := hfront.left
      obtain ⟨lead, hlead, hitems⟩ := hfront.right
      cases hfront.raw with
      | @call function closer inner us hfunction hparen hinner =>
          rw [tokenItems_group] at hitems
          simp only [hleft, callOf, Call.toValue, Cursor.peek_of_blank hlead hitems, hfunction]
          exact hmore
      | @block opener closer inner us hpartner hinner =>
          rw [tokenItems_group] at hitems
          have hsemicolon : opener.type ≠ .semicolon := by
            intro ht
            simp [ht, TokenType.partner?] at hpartner
          simp only [hleft, Cursor.peek_of_blank hlead hitems, if_neg hsemicolon]
          split
          · refine .behind_takes (next_of_peek hleft)
              (takes_rawBlock hpartner hinner.balanced hlead hitems) hfront.behind.owned ?_
            intro w hw hwscopes
            exact .pure (hfront.passed hw hwscopes)
              ⟨rfl, rfl, .some (kinBlock_grouped hfront.grouping hinner hfront.behind.fits)⟩
          · exact hmore

theorem ends_qualifiedEnd :
    Ends p False qualifiedEnd (fun _ a b => KinQualified p a b) := by
  intro read r s h _ hread
  have hmore : Kindred p r.cursor.items (SameEnd p False fun _ a b => KinQualified p a b)
      ((pure none : Read (Option QualifiedRule)) r) ((pure none : Read (Option QualifiedRule)) s) :=
    .pure h False.elim
  unfold qualifiedEnd
  refine .peek ?_
  cases h.front with
  | ended hr hs =>
      simp only [hr, hs]
      exact .failAt rfl
  | @same v hfront =>
      simp only [hfront.left, hfront.right]
      cases v with
      | token o =>
          dsimp only
          split
          · next hbrace =>
              have hopener : o.type.isOpener = true := by
                rw [hbrace]
                rfl
              refine (kindred_rawBlock hfront hopener).bind ?_
              rintro _ _ w x hblock halike _
              exact .pure halike ⟨rfl, hblock⟩
          · exact hmore
      | block opener contents closer =>
          dsimp only
          split
          · refine (kindred_next hfront).bind ?_
            rintro _ _ w x - halike _
            exact .pure halike ⟨rfl, kinBlock_refl hfront.behind.fits⟩
          · exact hmore
      | _ => exact hmore
  | group hfront =>
      have hleft := hfront.left
      obtain ⟨lead, hlead, hitems⟩ := hfront.right
      cases hfront.raw with
      | @call function closer inner us hfunction hparen hinner =>
          rw [tokenItems_group] at hitems
          simp only [hleft, callOf, Call.toValue, Cursor.peek_of_blank hlead hitems, hfunction]
          exact hmore
      | @block opener closer inner us hpartner hinner =>
          rw [tokenItems_group] at hitems
          simp only [hleft, Cursor.peek_of_blank hlead hitems]
          split
          · refine .behind_takes (next_of_peek hleft)
              (takes_rawBlock hpartner hinner.balanced hlead hitems) hfront.behind.owned ?_
            intro w hw hwscopes
            exact .pure (hfront.passed hw hwscopes)
              ⟨rfl, kinBlock_grouped hfront.grouping hinner hfront.behind.fits⟩
          · exact hmore

theorem kindred_qualifiedRule (h : Alike p r s) (n n' : Nat) :
    Kindred p r.cursor.items (fun _ a b => KinQualified p a b) (qualifiedRule n r)
      (qualifiedRule n' s) :=
  (kindred_values p n).collect ends_qualifiedEnd h False.elim fun _ hv => (List.not_mem_nil hv).elim

/-- What an alias stands for is put in front. -/
theorem kindred_expandAlias (h : Alike p r s) (hpending : Pending p.mixin r.cursor.items)
    (name : Token) {values : List Value} (hvalues : ∀ v ∈ values, Fits p r.cursor.items v) :
    Kindred p r.cursor.items (fun _ _ _ => True) (expandAlias name values r)
      (expandAlias name values s) := by
  have hplain (type : TokenType) (text : String) (htype : type.closer? = none)
      (hdelim : type ≠ .delim) (hident : type ≠ .ident) (hfunction : type ≠ .function) :
      Fits p r.cursor.items (.token ⟨type, text, name.position, .none⟩) := by
    refine ⟨.token ?_, fun _ => .token ⟨htype, ?_⟩⟩
    · rintro (ht | ht)
      · exact (hident ht).elim
      · exact (hfunction ht).elim
    · simp [Token.isDelim, hdelim]
  have hall : ∀ v ∈ Value.token ⟨.atKeyword, "media", name.position, .none⟩ ::
      .token ⟨.whitespace, " ", name.position, .none⟩ :: values, Fits p r.cursor.items v := by
    intro v hv
    rcases List.mem_cons.mp hv with rfl | hv
    · exact hplain _ _ rfl (by decide) (by decide) (by decide)
    · rcases List.mem_cons.mp hv with rfl | hv
      · exact hplain _ _ rfl (by decide) (by decide) (by decide)
      · exact hvalues v hv
  have hsplice : Kindred p r.cursor.items (fun _ _ _ => True)
      (splice (.token ⟨.atKeyword, "media", name.position, .none⟩ ::
        .token ⟨.whitespace, " ", name.position, .none⟩ :: values) r)
      (splice (.token ⟨.atKeyword, "media", name.position, .none⟩ ::
        .token ⟨.whitespace, " ", name.position, .none⟩ :: values) s) :=
    .ok trivial (h.splice hpending hall) owned_values_append.mp
  unfold expandAlias
  refine hsplice.bind ?_
  rintro _ _ t u - halike _
  exact (Kindred.record halike).mono (fun _ _ _ _ => trivial) id

theorem kindred_aliasOrRule (h : Alike p r s) (hpending : Pending p.mixin r.cursor.items)
    (n n' : Nat) (name : Token) :
    Kindred p r.cursor.items (fun _ a b => Option.Rel (KinAtRule p) a b) (aliasOrRule n name r)
      (aliasOrRule n' name s) := by
  have hrule : Kindred p r.cursor.items (fun _ a b => Option.Rel (KinAtRule p) a b)
      ((do return some (← collect n (atRuleEnd name) []) : Read (Option AtRule)) r)
      ((do return some (← collect n' (atRuleEnd name) []) : Read (Option AtRule)) s) := by
    refine ((kindred_values p n).collect (ends_atRuleEnd name) h False.elim
      fun _ hv => (List.not_mem_nil hv).elim).bind ?_
    rintro _ _ t u hrule halike _
    exact .pure halike (.some hrule)
  unfold aliasOrRule
  split
  · refine .peek (.peek ?_)
    simp only [h.checkDelim_blankOffset]
    split
    · next hdefines =>
        have hsign : r.cursor.skipWhitespace.checkDelim 0 "=" = true := by
          unfold Cursor.checkDelim at hdefines ⊢
          rw [Cursor.peek_blankOffset] at hdefines
          exact hdefines
        obtain ⟨v, hfront⟩ := h.skipWhitespace.sameFront_of_checkDelim hsign
        refine .skipWhitespace ((kindred_next hfront).bind ?_)
        rintro _ _ t u - halike _
        refine ((kindred_values p n).valueList halike).bind ?_
        rintro _ values t u ⟨rfl, hvalues⟩ halike _
        have hset : Kindred p t.cursor.items (fun _ _ _ => True)
            (updateScopes (·.setAlias name.text values) t)
            (updateScopes (·.setAlias name.text values) u) :=
          .ok trivial (halike.setAlias _ hvalues) id
        refine hset.bind ?_
        rintro _ _ t u - halike _
        refine (Kindred.record halike).bind ?_
        rintro _ _ t u - halike _
        exact .pure halike .none
    · refine .look ?_
      simp only [h.scopes.findAlias?]
      cases hfind : r.scopes.findAlias? name.text with
      | none => exact hrule
      | some values =>
          have hvalues (v : Value) (hv : v ∈ values) : Fits p r.cursor.items v :=
            ⟨made_of_findAlias? h.scopes.clean hfind v hv,
              fun hown => made_of_findAlias? (h.calm hown) hfind v hv⟩
          refine (kindred_expandAlias h hpending name hvalues).bind ?_
          rintro _ _ t u - halike _
          exact .pure halike .none
  · exact hrule

theorem kindred_atRule (h : Alike p r s) (n n' : Nat) :
    Kindred p r.cursor.items (fun _ a b => Option.Rel (KinAtRule p) a b) (atRule n r)
      (atRule n' s) := by
  unfold atRule
  refine (kindred_expects (expects_consume _ rfl) h).bind ?_
  rintro _ name t u ⟨rfl, hname, hbehind⟩ halike _
  have htype : name.type = .atKeyword := by simpa [Value.hasType] using hname
  have hpending : Pending p.mixin t.cursor.items := by
    refine hbehind.pending ?_ ?_
    · simp [Value.isWhitespace, Value.hasType, htype]
    · simp [Value.hasType, htype]
  dsimp only
  split
  · refine (kindred_defineMixin halike n n').bind ?_
    rintro _ _ w x - halike _
    exact .pure halike .none
  · split
    · refine (kindred_includeMixins halike n n' name).bind ?_
      rintro _ _ w x - halike _
      exact .pure halike .none
    · exact kindred_aliasOrRule halike hpending n n' name

/-- The rules are the same up to the form of their blocks. -/
inductive KinRule (p : Pairing) : Rule → Rule → Prop
  | atRule {a b : AtRule} : KinAtRule p a b → KinRule p (.atRule a) (.atRule b)
  | qualified {a b : QualifiedRule} : KinQualified p a b → KinRule p (.qualified a) (.qualified b)

theorem kindred_nextRule :
    ∀ {n n' : Nat} {r s : Reader}, Alike p r s →
      Kindred p r.cursor.items (fun _ a b => Option.Rel (KinRule p) a b) (nextRule n r)
        (nextRule n' s)
  | 0, _, _, _, _ => .exhausted_left
  | _ + 1, 0, _, _, _ => .exhausted_right
  | n + 1, n' + 1, r, s, h => by
      rw [nextRule, nextRule]
      refine .skip h fun {t u} halike _ => .peek ?_
      have hqualified : Kindred p t.cursor.items (fun _ a b => Option.Rel (KinRule p) a b)
          ((do return some (.qualified (← qualifiedRule n)) : Read (Option Rule)) t)
          ((do return some (.qualified (← qualifiedRule n')) : Read (Option Rule)) u) := by
        refine (kindred_qualifiedRule halike n n').bind ?_
        rintro _ _ w x hrule halike _
        exact .pure halike (.some (.qualified hrule))
      cases halike.front with
      | ended hr hs =>
          simp only [hr, hs]
          exact .pure halike .none
      | @same v hfront =>
          simp only [hfront.left, hfront.right]
          cases v with
          | token o =>
              dsimp only
              split
              · refine (kindred_next hfront).bind ?_
                rintro _ _ w x - halike _
                exact kindred_nextRule halike
              split
              · refine (kindred_atRule halike n n').bind ?_
                rintro _ _ w x hrule halike _
                cases hrule with
                | none => exact kindred_nextRule halike
                | some hrule => exact .pure halike (.some (.atRule hrule))
              refine .peek ?_
              simp only [halike.isVariableStart]
              split
              · refine ((kindred_values p n).variableUse halike).bind ?_
                rintro _ _ w x - halike _
                exact kindred_nextRule halike
              · exact hqualified
          | _ => exact hqualified
      | @group g ts rest hfront =>
          obtain ⟨o, hs, hopener⟩ := hfront.opener
          have hcomment : ¬ (o.type = .cdo ∨ o.type = .cdc) := by
            rintro (ht | ht)
            · exact type_ne_of_opener hopener rfl ht
            · exact type_ne_of_opener hopener rfl ht
          have hkeyword : o.type ≠ .atKeyword := type_ne_of_opener hopener rfl
          have hstart : isVariableStart u = .ok false u := by
            rw [isVariableStart, peek_run, hfront.isVariableStart]
          simp only [hfront.left, hs, if_neg hcomment, if_neg hkeyword]
          rw [bind_ok hstart]
          cases hfront.raw with
          | block => exact hqualified
          | call => exact hqualified

/-! ## Declarations and skipped statements -/

theorem ends_declarationEnd :
    Ends p True declarationEnd (fun _ a b => b = a) := by
  intro read r s h hpending _
  have hpending := hpending trivial
  have hdone : Kindred p r.cursor.items (SameEnd p True fun _ a b => b = a)
      ((pure (some read.reverse) : Read (Option (List Value))) r)
      ((pure (some read.reverse) : Read (Option (List Value))) s) :=
    .pure h rfl
  unfold declarationEnd
  refine .peek ?_
  cases h.front with
  | ended hr hs =>
      simp only [hr, hs]
      exact hdone
  | @same v hfront =>
      simp only [hfront.left, hfront.right]
      refine .peek ?_
      simp only [h.atExpansionEnd hpending]
      split
      · exact hdone
      · next hend =>
          split
          · refine (kindred_next hfront).bind ?_
            rintro _ _ w x - halike _
            exact .pure halike rfl
          · next hv =>
              exact .pure h fun _ =>
                ready_of_peek hpending hfront.left (by simpa using hend) (by simpa using hv)
  | group hfront =>
      obtain ⟨o, hs, hopener⟩ := hfront.opener
      have hsemicolon : (Value.token o).hasType .semicolon = false := hasType_of_opener hopener rfl
      simp only [hfront.left, hs]
      refine .peek ?_
      simp only [h.atExpansionEnd hpending]
      split
      · exact hdone
      · next hend =>
          simp only [hsemicolon, hfront.raw.hasType]
          exact .pure h fun _ =>
            ready_of_peek hpending hfront.left (by simpa using hend) (hfront.raw.hasType _)

theorem kindred_declaration (h : Alike p r s) (n n' : Nat) :
    Kindred p r.cursor.items (fun _ a b => b = a) (declaration n r) (declaration n' s) := by
  unfold declaration
  refine (kindred_expects (expects_consume _ rfl) h).bind ?_
  rintro _ name t u ⟨rfl, _, _⟩ halike _
  refine .skip halike fun {t u} halike _ => ?_
  refine (kindred_expects (expects_consume _ rfl) halike).bind ?_
  rintro _ colon w x ⟨rfl, hcolon, hbehind⟩ halike _
  have htype : colon.type = .colon := by simpa [Value.hasType] using hcolon
  have hpending : Pending p.mixin w.cursor.items := by
    refine hbehind.pending ?_ ?_
    · simp [Value.isWhitespace, Value.hasType, htype]
    · simp [Value.hasType, htype]
  refine ((kindred_values p n).collect ends_declarationEnd halike (fun _ => hpending)
    fun _ hv => (List.not_mem_nil hv).elim).bind ?_
  rintro _ values y z rfl halike _
  cases splitImportant (trimWhitespace values) with
  | ok value => exact .pure halike rfl
  | error d => exact .fail rfl

theorem kindred_skipStatement :
    ∀ {n n' : Nat} {skipped : Bool} {r s : Reader}, Alike p r s →
      (if skipped then Pending p.mixin r.cursor.items
        else ∀ v ∈ r.cursor.peek 0, v.isWhitespace = false) →
      Kindred p r.cursor.items (fun _ _ _ => True) (skipStatement n skipped r)
        (skipStatement n' skipped s)
  | 0, _, _, _, _, _, _ => .exhausted_left
  | _ + 1, 0, _, _, _, _, _ => .exhausted_right
  | n + 1, n' + 1, skipped, r, s, h, hskipped => by
      have hends : (skipped && s.cursor.atExpansionEnd) = (skipped && r.cursor.atExpansionEnd) := by
        cases skipped with
        | false => rfl
        | true => rw [h.atExpansionEnd hskipped]
      have hmore (hready : Ready p.mixin r.cursor.items) {f g : Option Value → Read Unit}
          (hf : ∀ found, f found = found.elim (skipStatement n true) fun v => do
            record (.valueSkipped v.start)
            skipStatement n true)
          (hg : ∀ found, g found = found.elim (skipStatement n' true) fun v => do
            record (.valueSkipped v.start)
            skipStatement n' true) :
          Kindred p r.cursor.items (fun _ _ _ => True) ((value n >>= f) r) ((value n' >>= g) s) := by
        refine ((kindred_values p n).value h).bind ?_
        rintro _ v t u ⟨rfl, _, hpending⟩ halike _
        have hpending := hpending hready
        rw [hf, hg]
        cases v with
        | none => exact kindred_skipStatement halike hpending
        | some v =>
            refine (Kindred.record halike).bind ?_
            rintro _ _ w x hw halike _
            rw [← hw] at hpending
            exact kindred_skipStatement halike hpending
      have hready {v : Value} (hpeek : r.cursor.peek 0 = some v)
          (hv : v.hasType .semicolon = false)
          (hend : ¬ (skipped && r.cursor.atExpansionEnd) = true) :
          Ready p.mixin r.cursor.items := by
        cases skipped with
        | false => exact ready_of_not_blank hpeek (hskipped v hpeek) hv
        | true => exact ready_of_peek hskipped hpeek (by simpa using hend) hv
      rw [skipStatement, skipStatement]
      refine .peek ?_
      cases h.front with
      | ended hr hs =>
          simp only [hr, hs]
          exact .pure h trivial
      | @same v hfront =>
          simp only [hfront.left, hfront.right]
          refine .peek ?_
          simp only [hends]
          split
          · exact .pure h trivial
          · next hend =>
              split
              · refine (kindred_next hfront).bind ?_
                rintro _ _ w x - halike _
                exact .pure halike trivial
              · next hv =>
                  exact hmore (hready hfront.left (by simpa using hv) hend)
                    (by rintro (_ | _) <;> rfl) (by rintro (_ | _) <;> rfl)
      | group hfront =>
          obtain ⟨o, hs, hopener⟩ := hfront.opener
          have hsemicolon : (Value.token o).hasType .semicolon = false :=
            hasType_of_opener hopener rfl
          simp only [hfront.left, hs]
          refine .peek ?_
          simp only [hends]
          split
          · exact .pure h trivial
          · next hend =>
              simp only [hsemicolon, hfront.raw.hasType, Bool.false_eq_true, if_false]
              exact hmore (hready hfront.left (hfront.raw.hasType _) hend)
                (by rintro (_ | _) <;> rfl) (by rintro (_ | _) <;> rfl)

/-! ## Bodies -/

/-- A body in a scope of its own leaves the scopes as they were. -/
theorem scopes_of_inside {x : Read α} (hx : Steady x) {a : α}
    (h : nested (inScope x) r = .ok a t) :
    t.scopes = r.scopes := by
  by_cases hroom : r.nesting < r.limits.nestingDepth
  · rw [nested_of_lt hroom] at h
    obtain ⟨w, hw, rfl⟩ := ok_of_andFinally h
    rw [inScope_run] at hw
    obtain ⟨y, hy, rfl⟩ := ok_of_andFinally hw
    have hsteady := hx { r with
      nesting := r.nesting + 1
      deepest := max r.deepest (r.nesting + 1)
      scopes := r.scopes.enter }
    rw [after_ok hy] at hsteady
    have houter : y.scopes.outer = r.scopes.frames := hsteady.outer
    simp [Scopes.exit, Scopes.exit?, houter, Scopes.frames]
  · rw [nested_of_le (Int.not_lt.mp hroom)] at h
    cases h

/-- The outcomes agree up to the readers, which do not matter to what is around a body. -/
inductive Agree (p : Pairing) : EStateM.Result Stop Reader α → EStateM.Result Stop Reader α → Prop
  | excused {e : Stop} {t : Reader} {o : EStateM.Result Stop Reader α} :
      e.Excused p → Agree p (.error e t) o
  | cut {e : Stop} {u : Reader} {o : EStateM.Result Stop Reader α} :
      e.IsCut → Agree p o (.error e u)
  | same {d d' : Diagnostic} {t u : Reader} :
      d.kind = d'.kind → Agree p (.error (.fault d) t) (.error (.fault d') u)
  | ok {a : α} {t u : Reader} : Agree p (.ok a t) (.ok a u)

theorem Kindred.agree {o o' : EStateM.Result Stop Reader α}
    (h : Kindred p l (fun _ a b => b = a) o o') :
    Agree p o o' := by
  cases h with
  | excused he => exact .excused he
  | cut he => exact .cut he
  | same hkind => exact .same hkind
  | ok hab _ _ =>
      subst hab
      exact .ok

theorem Agree.andFinally {x y : Read α} (h : Agree p (x r) (y s)) (f g : Reader → Reader) :
    Agree p (andFinally x f r) (andFinally y g s) := by
  unfold Read.andFinally
  revert h
  generalize x r = o
  generalize y s = o'
  intro h
  cases h with
  | excused he => exact .excused he
  | @cut e u o he => cases o <;> exact .cut he
  | same hkind => exact .same hkind
  | ok => exact .ok

/-- Both readers come back from a body as they were. -/
theorem kindred_within {x y : Read α} (h : Alike p r s) (hx : Steady x) (hy : Steady y)
    {us us' : List Value}
    (hin : Agree p (nested (inScope x) { r with cursor := .ofValues us r.cursor.depth })
      (nested (inScope y) { s with cursor := .ofValues us' s.cursor.depth })) :
    Kindred p r.cursor.items (fun _ a b => b = a) (within us (nested (inScope x)) r)
      (within us' (nested (inScope y)) s) := by
  rw [within_run, within_run]
  unfold Read.andFinally
  cases hleft : nested (inScope x) { r with cursor := .ofValues us r.cursor.depth } with
  | error e t =>
      rw [hleft] at hin
      cases hright : nested (inScope y) { s with cursor := .ofValues us' s.cursor.depth } with
      | error e' u =>
          rw [hright] at hin
          cases hin with
          | excused he => exact .excused he
          | cut he => exact .cut he
          | same hkind => exact .same hkind
      | ok b u =>
          rw [hright] at hin
          cases hin with
          | excused he => exact .excused he
  | ok a t =>
      rw [hleft] at hin
      cases hright : nested (inScope y) { s with cursor := .ofValues us' s.cursor.depth } with
      | error e' u =>
          rw [hright] at hin
          cases hin with
          | cut he => exact .cut he
      | ok b u =>
          rw [hright] at hin
          cases hin with
          | ok =>
              have ht := scopes_of_inside hx hleft
              have hu := scopes_of_inside hy hright
              exact .ok rfl (h.congr rfl ht rfl hu) id

/-- The bodies of two blocks are read in scopes of their own. -/
theorem kindred_inside {x y : Read (List Entry)} (h : Alike p r s) {a b : Block}
    (hblock : KinBlock p a b) (hx : Steady x) (hy : Steady y)
    (hin : ∀ {t u : Reader}, Alike p t u →
      Kindred p t.cursor.items (fun _ e e' => e' = e) (x t) (y u)) :
    Kindred p r.cursor.items (fun _ e e' => e' = e) (within a.contents (nested (inScope x)) r)
      (within b.contents (nested (inScope y)) s) := by
  have hinner : Alike p { r with cursor := .ofValues a.contents r.cursor.depth }
      { s with cursor := .ofValues b.contents s.cursor.depth } := by
    have hfree : ¬ Owned p.mixin (Cursor.ofValues a.contents r.cursor.depth).items :=
      not_owned_values a.contents
    refine ⟨hblock.contents, ?_, .of_not_owned hfree, h.scopes, fun hown => (hfree hown).elim⟩
    intro v hv
    have hrest : (Cursor.ofValues a.contents r.cursor.depth).rest = a.contents := by
      simp [Cursor.rest, Cursor.ofValues, List.filterMap_map, Function.comp_def, Item.value?]
    change v ∈ (Cursor.ofValues a.contents r.cursor.depth).rest at hv
    rw [hrest] at hv
    exact hblock.clean v hv
  have hrun : Kindred p (Cursor.ofValues a.contents r.cursor.depth).items (fun _ e e' => e' = e)
      (nested (inScope x) { r with cursor := .ofValues a.contents r.cursor.depth })
      (nested (inScope y) { s with cursor := .ofValues b.contents s.cursor.depth }) := by
    refine .nested ?_
    intro t u ht htscopes hu huscopes
    have halike : Alike p t u :=
      hinner.congr (congrArg Cursor.items ht) htscopes (congrArg Cursor.items hu) huscopes
    refine (Kindred.inScope hx hy halike ?_).widen ?_
    · intro w z halike hw _
      rw [← hw]
      exact hin halike
    · rw [ht]
      exact id
  exact kindred_within h hx hy hrun.agree

/-- Bodies are read alike with a budget of the first reader. -/
structure KindredBodies (p : Pairing) (n : Nat) : Prop where
  styleBlock : ∀ {n' : Nat} {a b : Block} {r s : Reader}, Alike p r s → KinBlock p a b →
    Kindred p r.cursor.items (fun _ e e' => e' = e) (styleBlock n a r) (styleBlock n' b s)
  styleEntries : ∀ {n' : Nat} {read : List Entry} {r s : Reader}, Alike p r s →
    Kindred p r.cursor.items (fun _ e e' => e' = e) (styleEntries n read r) (styleEntries n' read s)
  styleStatement : ∀ {n' : Nat} {v v' : Value} {r s : Reader}, Alike p r s →
    r.cursor.peek 0 = some v → s.cursor.peek 0 = some v' →
    Kindred p r.cursor.items (fun _ e e' => e' = e) (styleStatement n v r) (styleStatement n' v' s)
  styleRule : ∀ {n' : Nat} {a b : QualifiedRule} {r s : Reader}, Alike p r s → KinQualified p a b →
    Kindred p r.cursor.items (fun _ e e' => e' = e) (styleRule n a r) (styleRule n' b s)
  resolveAtRule : ∀ {n' : Nat} {a b : AtRule} {r s : Reader} (inStyle : Bool), Alike p r s →
    KinAtRule p a b →
    Kindred p r.cursor.items (fun _ e e' => e' = e) (resolveAtRule n a inStyle r)
      (resolveAtRule n' b inStyle s)
  ruleList : ∀ {n' : Nat} {read : List Entry} {r s : Reader}, Alike p r s →
    Kindred p r.cursor.items (fun _ e e' => e' = e) (ruleList n read r) (ruleList n' read s)
  keyframes : ∀ {n' : Nat} {read : List Entry} {r s : Reader}, Alike p r s →
    Kindred p r.cursor.items (fun _ e e' => e' = e) (keyframes n read r) (keyframes n' read s)

theorem kindred_styleEntries_of {n : Nat} (ih : KindredBodies p n) {read : List Entry}
    (h : Alike p r s) (n' : Nat) :
    Kindred p r.cursor.items (fun _ e e' => e' = e) (styleEntries (n + 1) read r)
      (styleEntries n' read s) := by
  cases n' with
  | zero =>
      rw [styleEntries_zero]
      exact .exhausted_right
  | succ n' =>
      have hmore {v v' : Value} (hv : r.cursor.peek 0 = some v) (hv' : s.cursor.peek 0 = some v')
          {f g : Option Entry → Read (List Entry)}
          (hf : ∀ found, f found = styleEntries n (found.elim read (· :: read)))
          (hg : ∀ found, g found = styleEntries n' (found.elim read (· :: read))) :
          Kindred p r.cursor.items (fun _ e e' => e' = e) ((styleStatement n v >>= f) r)
            ((styleStatement n' v' >>= g) s) := by
        refine (ih.styleStatement h hv hv').bind ?_
        rintro _ entry t u rfl halike _
        rw [hf, hg]
        exact ih.styleEntries halike
      rw [styleEntries, styleEntries]
      refine .peek ?_
      cases h.front with
      | ended hr hs =>
          simp only [hr, hs]
          exact .pure h rfl
      | same hfront =>
          simp only [hfront.left, hfront.right]
          exact hmore hfront.left hfront.right (by rintro (_ | _) <;> rfl) (by rintro (_ | _) <;> rfl)
      | group hfront =>
          obtain ⟨o, hs, _⟩ := hfront.opener
          simp only [hfront.left, hs]
          exact hmore hfront.left hs (by rintro (_ | _) <;> rfl) (by rintro (_ | _) <;> rfl)

/-- A statement that both readers start with the same token. -/
theorem kindred_tokenStatement {n n' : Nat} (ih : KindredBodies p n) {o : Token}
    (h : Alike p r s) (hfront : SameFront p r s (.token o)) :
    Kindred p r.cursor.items (fun _ e e' => e' = e) (styleStatement (n + 1) (.token o) r)
      (styleStatement (n' + 1) (.token o) s) := by
  rw [styleStatement, styleStatement]
  split
  · refine (kindred_next hfront).bind ?_
    rintro _ _ w x - halike _
    exact .pure halike rfl
  next hblank =>
  split
  · refine (kindred_atRule h n n').bind ?_
    rintro _ _ w x hrule halike _
    cases hrule with
    | none => exact .pure halike rfl
    | some hrule =>
        refine (ih.resolveAtRule true halike hrule).bind ?_
        rintro _ _ y z rfl halike _
        exact .pure halike rfl
  refine .peek ?_
  simp only [h.isVariableStart]
  split
  · refine ((kindred_values p n).variableUse h).bind ?_
    rintro _ _ w x - halike _
    exact .pure halike rfl
  split
  · refine (kindred_declaration h n n').bind ?_
    rintro _ _ w x rfl halike _
    exact .pure halike rfl
  split
  · refine (kindred_qualifiedRule h n n').bind ?_
    rintro _ _ w x hrule halike _
    refine (ih.styleRule halike hrule).bind ?_
    rintro _ _ y z rfl halike _
    exact .pure halike rfl
  · refine (kindred_skipStatement h ?_).bind ?_
    · intro v hv
      rw [hfront.left] at hv
      cases hv
      have hnot : o.type ≠ .whitespace := fun ht => hblank (.inl ht)
      simpa [Value.isWhitespace, Value.hasType] using hnot
    · rintro _ _ w x - halike _
      exact .pure halike rfl

theorem styleStatement_of_not_token {n : Nat} (hv : ∀ t, v ≠ .token t) :
    styleStatement (n + 1) v = (do
      skipStatement n false
      return none : Read (Option Entry)) := by
  cases v with
  | token t => exact (hv t rfl).elim
  | _ =>
      rw [styleStatement]
      rintro _ ⟨⟩

theorem kindred_styleStatement_of {n : Nat} (ih : KindredBodies p n) {v v' : Value}
    (h : Alike p r s) (hv : r.cursor.peek 0 = some v) (hv' : s.cursor.peek 0 = some v') (n' : Nat) :
    Kindred p r.cursor.items (fun _ e e' => e' = e) (styleStatement (n + 1) v r)
      (styleStatement n' v' s) := by
  have hskip (hblank : v.isWhitespace = false) (n' : Nat) :
      Kindred p r.cursor.items (fun _ e e' => e' = e)
        ((do skipStatement n false; return none : Read (Option Entry)) r)
        ((do skipStatement n' false; return none : Read (Option Entry)) s) := by
    refine (kindred_skipStatement h ?_).bind ?_
    · intro w hw
      rw [hv] at hw
      cases hw
      exact hblank
    · rintro _ _ w x - halike _
      exact .pure halike rfl
  cases n' with
  | zero =>
      rw [styleStatement_zero]
      exact .exhausted_right
  | succ n' =>
      cases h.front with
      | ended hr _ =>
          rw [hr] at hv
          cases hv
      | same hfront =>
          have hleft := hfront.left
          have hright := hfront.right
          rw [hv] at hleft
          rw [hv'] at hright
          cases hleft
          cases hright
          by_cases htoken : ∃ o, v = .token o
          · obtain ⟨o, rfl⟩ := htoken
            exact kindred_tokenStatement ih h hfront
          · have hnot : ∀ t, v ≠ .token t := fun t ht => htoken ⟨t, ht⟩
            rw [styleStatement_of_not_token hnot, styleStatement_of_not_token hnot]
            refine hskip ?_ n'
            cases v with
            | token o => exact (hnot o rfl).elim
            | _ => rfl
      | group hfront =>
          -- The second reader is at the token that opens the group, which starts no statement.
          obtain ⟨o, hs, hopener⟩ := hfront.opener
          have hleft := hfront.left
          rw [hv] at hleft
          rw [hv'] at hs
          cases hleft
          cases hs
          have hblank : ¬ (o.type = .whitespace ∨ o.type = .semicolon) := by
            rintro (ht | ht)
            · exact type_ne_of_opener hopener rfl ht
            · exact type_ne_of_opener hopener rfl ht
          have hkeyword : o.type ≠ .atKeyword := type_ne_of_opener hopener rfl
          have hident : o.type ≠ .ident := type_ne_of_opener hopener rfl
          have hstart : isVariableStart s = .ok false s := by
            rw [isVariableStart, peek_run, hfront.isVariableStart]
          have hnot : ∀ t, v ≠ .token t := by
            rintro t rfl
            cases hfront.raw
          rw [styleStatement_of_not_token hnot, styleStatement]
          simp only [if_neg hblank, if_neg hkeyword]
          rw [bind_ok hstart]
          simp only [if_neg hident, isDelim_of_opener hopener]
          exact hskip (hfront.raw.hasType _) n'

theorem kindred_styleRule_of {n : Nat} (ih : KindredBodies p n) {a b : QualifiedRule}
    (h : Alike p r s) (hrule : KinQualified p a b) (n' : Nat) :
    Kindred p r.cursor.items (fun _ e e' => e' = e) (styleRule (n + 1) a r) (styleRule n' b s) := by
  cases n' with
  | zero =>
      rw [styleRule_zero]
      exact .exhausted_right
  | succ n' =>
      rw [styleRule, styleRule, hrule.prelude]
      cases Selector.parse a.prelude with
      | error d => exact .fail rfl
      | ok selectors =>
          refine (ih.styleBlock h hrule.block).bind ?_
          rintro _ _ t u rfl halike _
          exact .pure halike rfl

theorem kindred_resolveAtRule_of {n : Nat} (ih : KindredBodies p n) {a b : AtRule} (inStyle : Bool)
    (h : Alike p r s) (hrule : KinAtRule p a b) (n' : Nat) :
    Kindred p r.cursor.items (fun _ e e' => e' = e) (resolveAtRule (n + 1) a inStyle r)
      (resolveAtRule n' b inStyle s) := by
  cases n' with
  | zero =>
      rw [resolveAtRule_zero]
      exact .exhausted_right
  | succ n' =>
      have hdone {x y : Read (List Entry)}
          (hxy : Kindred p r.cursor.items (fun _ e e' => e' = e) (x r) (y s)) :
          Kindred p r.cursor.items (fun _ e e' => e' = e)
            ((do return a.resolved (← x) : Read Entry) r)
            ((do return b.resolved (← y) : Read Entry) s) := by
        refine hxy.bind ?_
        rintro _ body t u rfl halike _
        exact .pure halike (hrule.resolved body)
      have hblock := hrule.block
      rw [resolveAtRule, resolveAtRule, hrule.name]
      revert hblock
      cases a.block with
      | none =>
          cases b.block with
          | none => exact fun _ => .pure h (hrule.resolved [])
          | some y => rintro ⟨⟩
      | some x =>
          cases b.block with
          | none => rintro ⟨⟩
          | some y =>
              rintro ⟨hxy⟩
              cases BodyKind.ofName a.name.text <;> cases inStyle
              case keyframes.false | keyframes.true =>
                exact hdone (kindred_inside h hxy ((steady_bodies n).keyframes _)
                  ((steady_bodies n').keyframes _) ih.keyframes)
              case rules.false =>
                exact hdone (kindred_inside h hxy ((steady_bodies n).ruleList _)
                  ((steady_bodies n').ruleList _) ih.ruleList)
              all_goals exact hdone (ih.styleBlock h hxy)

theorem kindred_ruleList_of {n : Nat} (ih : KindredBodies p n) {read : List Entry}
    (h : Alike p r s) (n' : Nat) :
    Kindred p r.cursor.items (fun _ e e' => e' = e) (ruleList (n + 1) read r)
      (ruleList n' read s) := by
  cases n' with
  | zero =>
      rw [ruleList_zero]
      exact .exhausted_right
  | succ n' =>
      rw [ruleList, ruleList]
      refine (kindred_nextRule h).bind ?_
      rintro _ _ t u hrule halike _
      cases hrule with
      | none => exact .pure halike rfl
      | some hrule =>
          cases hrule with
          | qualified hrule =>
              refine (ih.styleRule halike hrule).bind ?_
              rintro _ _ w x rfl halike _
              exact ih.ruleList halike
          | atRule hrule =>
              refine (ih.resolveAtRule false halike hrule).bind ?_
              rintro _ _ w x rfl halike _
              exact ih.ruleList halike

theorem kindred_keyframes_of {n : Nat} (ih : KindredBodies p n) {read : List Entry}
    (h : Alike p r s) (n' : Nat) :
    Kindred p r.cursor.items (fun _ e e' => e' = e) (keyframes (n + 1) read r)
      (keyframes n' read s) := by
  cases n' with
  | zero =>
      rw [keyframes_zero]
      exact .exhausted_right
  | succ n' =>
      rw [keyframes, keyframes]
      refine (kindred_nextRule h).bind ?_
      rintro _ _ t u hrule halike _
      cases hrule with
      | none => exact .pure halike rfl
      | some hrule =>
          cases hrule with
          | qualified hrule =>
              refine (ih.styleBlock halike hrule.block).bind ?_
              rintro _ _ w x rfl halike _
              simp only [hrule.prelude, hrule.block.opener, hrule.block.closer]
              exact ih.keyframes halike
          | atRule hrule =>
              refine (ih.resolveAtRule true halike hrule).bind ?_
              rintro _ _ w x rfl halike _
              exact ih.keyframes halike

theorem kindred_bodies (p : Pairing) (n : Nat) :
    KindredBodies p n := by
  induction n with
  | zero =>
      constructor <;> intros <;> simp only [styleBlock_zero, styleEntries_zero, styleStatement_zero,
        styleRule_zero, resolveAtRule_zero, ruleList_zero, keyframes_zero] <;> exact .exhausted_left
  | succ n ih =>
      refine ⟨?_, ?_, ?_, ?_, ?_, ?_, ?_⟩
      · intro n' a b r s h hblock
        cases n' with
        | zero =>
            rw [styleBlock_zero]
            exact .exhausted_right
        | succ n' =>
            rw [styleBlock, styleBlock]
            exact kindred_inside h hblock ((steady_bodies n).styleEntries _)
              ((steady_bodies n').styleEntries _) ih.styleEntries
      · exact fun h => kindred_styleEntries_of ih h _
      · exact fun h hv hv' => kindred_styleStatement_of ih h hv hv' _
      · exact fun h hrule => kindred_styleRule_of ih h hrule _
      · exact fun inStyle h hrule => kindred_resolveAtRule_of ih inStyle h hrule _
      · exact fun h => kindred_ruleList_of ih h _
      · exact fun h => kindred_keyframes_of ih h _

end Read
end Cascade
