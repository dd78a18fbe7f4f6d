import Cascade.Proofs.Substitution

/-!
# Termination of substitution

A stylesheet that defines and includes no mixins, and whose definitions are
settled, is read to an end.  Uses of its variables and aliases are replaced, and
what has been put in their place is read without any further substitution.

**Method.**  Statements are read by induction on the blocks that may still be
opened, and inside one block by induction on the effort.

**Results.**
* `halts_atRule`: aliases are defined or replaced.
* `haltsBodies`: bodies of all kinds.
* `Sheet.substitution_terminates`: stylesheets.
-/

namespace Cascade
namespace Substitution

open Read

/-! ## Rules -/

section Rules

variable {r s : Reader} {v : Value} {t : Token}

theorem meets_consume (h : TameReader none r) (type : TokenType) (what : String) :
    Read.Meets (fun _ s => Lowers none r s) (scan (Scan.consume type what) r) := by
  unfold scan Scan.consume
  cases hfront : r.cursor.peekToken 0 with
  | none => rintro ⟨⟩
  | some t =>
      have hpeek := Cursor.peek_of_peekToken hfront
      by_cases htype : t.type = type
      · simp only [htype, if_true]
        exact lowers_next h hpeek (h.front hpeek).tail
      · simp only [htype, if_false]
        rintro ⟨⟩

theorem meets_skipWhitespace (h : TameReader none r) :
    Read.Meets (fun _ s => Follows none r s) (skipWhitespace r) := by
  refine ⟨⟨?_, h.frames⟩, rfl, rfl, effort_skipWhitespace_le r.cursor⟩
  rw [Cursor.rest_skipWhitespace]
  exact h.rest.dropWhile _

/-- The flat contents of a block are what is read up to its closer, or to the end of the input. -/
theorem rawContents_splits (opener : Token) (closer : TokenType) (n : Nat) (due : List TokenType)
    (read : List Value) {c : Cursor} (hn : c.rest.length < n) :
    ∃ b d contents, Scan.rawContents opener closer n due read c = .ok b d ∧
      b.contents = read.reverse ++ contents ∧
      ((c.rest = contents ∧ d.rest = []) ∨
        ∃ t, t.type = closer ∧ c.rest = contents ++ .token t :: d.rest) := by
  induction n generalizing due read c with
  | zero => exact (Nat.not_lt_zero _ hn).elim
  | succ n ih =>
      have hrun {f : Option Value → Scan Block} :
          (Scan.next >>= f) c = f c.next.1 c.next.2 := by
        rfl
      rw [Scan.rawContents, hrun]
      cases hfront : c.peek 0 with
      | none =>
          have hrest : c.rest = [] := by
            rw [Cursor.peek_eq_getElem?, ← List.head?_eq_getElem?, List.head?_eq_none_iff] at hfront
            exact hfront
          rw [Cursor.next_fst, hrest]
          refine ⟨_, _, [], rfl, by simp, .inl ⟨rfl, ?_⟩⟩
          rw [Cursor.rest_next, hrest]
          rfl
      | some v =>
          have hrest := rest_of_peek hfront
          have hbehind (due' : List TokenType) :
              ∃ b d contents, Scan.rawContents opener closer n due' (v :: read) c.next.2 = .ok b d ∧
                b.contents = read.reverse ++ contents ∧
                ((c.rest = contents ∧ d.rest = []) ∨
                  ∃ t, t.type = closer ∧ c.rest = contents ++ .token t :: d.rest) := by
            have hlength : c.next.2.rest.length < n := by
              rw [hrest, List.length_cons] at hn
              omega
            obtain ⟨b, d, contents, hb, hcontents, hsplit⟩ := ih due' (v :: read) hlength
            refine ⟨b, d, v :: contents, hb, by simp [hcontents], ?_⟩
            rw [hrest]
            rcases hsplit with ⟨hall, hend⟩ | ⟨t, ht, hsplit⟩
            · exact .inl ⟨by rw [hall], hend⟩
            · exact .inr ⟨t, ht, by rw [hsplit]; rfl⟩
          rw [Cursor.next_fst, hrest, List.head?_cons]
          rw [hrest] at hbehind
          cases v with
          | token t =>
              by_cases hclose : due = [] ∧ t.type = closer
              · simp only [hclose, and_self, if_true]
                exact ⟨_, _, [], rfl, by simp, .inr ⟨t, hclose.2, rfl⟩⟩
              · simp only [hclose, if_false]
                exact hbehind _
          | block opener contents closer => exact hbehind due
          | call name args commas closer => exact hbehind due
          | reference dollar name => exact hbehind due

/-- A part of the source that ends before a brace, and what is behind the brace. -/
theorem tame_of_split {ts : List Token} {contents behind : List Value} (h : SettledSource ts)
    (hbrace : t.type = .closeBrace) (hsplit : ts.map .token = contents ++ .token t :: behind) :
    Tame none contents ∧ Tame none behind := by
  obtain ⟨before, after, rfl, rfl, hafter⟩ := List.map_eq_append_iff.mp hsplit
  obtain ⟨u, after, rfl, hu, rfl⟩ := List.map_eq_cons_iff.mp hafter
  cases hu
  have hident : t.type ≠ .ident := by
    rw [hbrace]
    nofun
  refine ⟨.of_source ⟨h.front hident, nofun⟩, .of_source ⟨h.suffix ?_, nofun⟩⟩
  exact (List.suffix_cons t after).trans (List.suffix_append before _)

theorem meets_rawBlock (h : TameReader none r) (hfront : r.cursor.peek 0 = some (.token t))
    (hbrace : t.type = .openBrace) :
    Read.Meets (fun b s => Tame none b.contents ∧ Lowers none r s) (scan Scan.rawBlock r) := by
  have hpartner : t.type.partner? = some .closeBrace := by
    rw [hbrace]
    rfl
  rcases (h.front hfront).cases with ⟨hsettled, _⟩ | ⟨_, ts, ht, hrest, hsource⟩
  · cases hsettled with
    | token hopens => simp [TokenType.closer?_of_partner? hpartner] at hopens
  · cases ht
    have hlength : r.cursor.next.2.rest.length < r.cursor.next.2.items.length + 1 :=
      Nat.lt_succ_of_le (List.length_filterMap_le _ _)
    obtain ⟨b, d, contents, hb, hcontents, hsplit⟩ :=
      rawContents_splits t .closeBrace _ [] [] hlength
    have hrun : Scan.rawBlock r.cursor = .ok b d := by
      simp only [Scan.rawBlock, Scan.opener, Scan.look, Scan.next, bind, EStateM.bind, pure,
        EStateM.pure, Cursor.peekToken, hfront, hpartner]
      exact hb
    have hparts : Tame none contents ∧ Tame none d.rest ∧
        effort d.rest ≤ effort r.cursor.next.2.rest := by
      rcases hsplit with ⟨hall, hend⟩ | ⟨closer, hcloser, hsplit⟩
      · rw [← hall, hend, hrest]
        exact ⟨.of_source ⟨hsource.source.behind, by rintro _ ⟨⟩⟩,
          .of_settled (List.forall_mem_nil _),
          by simpa using effort_le_append (ts.map .token) []⟩
      · obtain ⟨hcontents, hbehind⟩ :=
          tame_of_split hsource.source.behind hcloser (hrest ▸ hsplit)
        refine ⟨hcontents, hbehind, ?_⟩
        rw [hsplit]
        exact le_trans (le_of_lt (effort_lt_cons _ _)) (effort_le_append _ _)
    have hnext := lowers_next h hfront (h.front hfront).tail
    rw [List.reverse_nil, List.nil_append] at hcontents
    simp only [scan, hrun]
    refine ⟨hcontents ▸ hparts.1, ⟨hparts.2.1, h.frames⟩, rfl, rfl, ?_⟩
    exact lt_of_le_of_lt hparts.2.2 hnext.effort

/-- The block of an at-rule, if it has one, is tame. -/
def TameRule (rule : AtRule) : Prop :=
  ∀ b ∈ rule.block, Tame none b.contents

theorem tame_of_peek_block (h : TameReader none r) {opener : Token} {contents : List Value}
    {closer : Option Token} (hfront : r.cursor.peek 0 = some (.block opener contents closer)) :
    Tame none contents := by
  rcases (h.front hfront).cases with ⟨hsettled, _⟩ | ⟨_, _, ht, _⟩
  · cases hsettled with
    | block hcontents => exact .of_settled hcontents
  · cases ht

theorem endsIn_atRuleEnd (name : Token) :
    EndsIn none (atRuleEnd name) fun rule r s => TameRule rule ∧ Follows none r s := by
  refine ⟨?_, fun hrs hst => ⟨hst.1, hrs.thenFollow hst.2⟩⟩
  intro read r h _
  have hnone : TameRule ⟨name, trimWhitespace read.reverse, none⟩ := by
    intro b hb
    cases hb
  have hsome {b : Block} (hb : Tame none b.contents) :
      TameRule ⟨name, trimWhitespace read.reverse, some b⟩ := by
    rintro _ ⟨rfl⟩
    exact hb
  unfold atRuleEnd
  rw [bind_ok (peek_run _ r)]
  cases hfront : r.cursor.peek 0 with
  | none => exact ⟨hnone, .refl h⟩
  | some v =>
      have hnext := meets_next h hfront (h.front hfront).tail
      cases v with
      | token t =>
          by_cases hsemicolon : t.type = .semicolon
          · simp only [hsemicolon, if_true]
            exact hnext.bind fun _ s hs => ⟨hnone, hs.2.follows⟩
          · by_cases hbrace : t.type = .openBrace
            · simp only
              rw [if_neg hsemicolon, if_pos hbrace]
              exact (meets_rawBlock h hfront hbrace).bind fun b s hb => ⟨hsome hb.1, hb.2.follows⟩
            · simp only [hsemicolon, hbrace, if_false]
              exact ⟨rfl, _, hfront, goesOn_none _⟩
      | block opener contents closer =>
          by_cases hbrace : opener.type = .openBrace
          · simp only [hbrace, if_true]
            exact hnext.bind fun _ s hs => ⟨hsome (tame_of_peek_block h hfront), hs.2.follows⟩
          · simp only [hbrace, if_false]
            exact ⟨rfl, _, hfront, goesOn_none _⟩
      | call name args commas closer => exact ⟨rfl, _, hfront, goesOn_none _⟩
      | reference dollar name => exact ⟨rfl, _, hfront, goesOn_none _⟩

theorem endsIn_qualifiedEnd :
    EndsIn none qualifiedEnd fun rule r s => Tame none rule.block.contents ∧ Lowers none r s := by
  refine ⟨?_, fun hrs hst => ⟨hst.1, hrs.thenLower hst.2⟩⟩
  intro read r h _
  unfold qualifiedEnd
  rw [bind_ok (peek_run _ r)]
  cases hfront : r.cursor.peek 0 with
  | none => rintro ⟨⟩
  | some v =>
      cases v with
      | token t =>
          by_cases hbrace : t.type = .openBrace
          · simp only
            rw [if_pos hbrace]
            exact (meets_rawBlock h hfront hbrace).bind fun b s hb => hb
          · simp only [hbrace, if_false]
            exact ⟨rfl, _, hfront, goesOn_none _⟩
      | block opener contents closer =>
          by_cases hbrace : opener.type = .openBrace
          · simp only [hbrace, if_true]
            refine (meets_next h hfront (h.front hfront).tail).bind fun _ s hs => ?_
            exact ⟨tame_of_peek_block h hfront, hs.2⟩
          · simp only [hbrace, if_false]
            exact ⟨rfl, _, hfront, goesOn_none _⟩
      | call name args commas closer => exact ⟨rfl, _, hfront, goesOn_none _⟩
      | reference dollar name => exact ⟨rfl, _, hfront, goesOn_none _⟩

theorem halts_qualifiedRule (h : TameReader none r) :
    Halts qualifiedRule r fun rule s => Tame none rule.block.contents ∧ Lowers none r s :=
  (haltsLists h).collect endsIn_qualifiedEnd [] nofun

/-- What an at-rule gives: a rule with a tame block, or no rule but a binding or a substitution. -/
def AtRuleRead (r : Reader) (found : Option AtRule) (s : Reader) : Prop :=
  (∀ rule ∈ found, TameRule rule) ∧ Lowers none r s

theorem AtRuleRead.of_none (h : Lowers none r s) :
    AtRuleRead r none s := by
  refine ⟨?_, h⟩
  intro rule hrule
  cases hrule

theorem halts_atRuleEnd (hs : Lowers none r s) (name : Token) :
    Halts (fun n => do return some (← collect n (atRuleEnd name) [])) s (AtRuleRead r) := by
  refine Halts.bind ((haltsLists hs.tame).collect (endsIn_atRuleEnd name) [] nofun) ?_
  intro rule u hu
  refine .pure ⟨?_, hs.lowerThenFollow hu.2⟩
  rintro _ ⟨rfl⟩
  exact hu.1

theorem foldCase_media :
    Text.foldCase "media" = "media" := by
  decide

/-- An alias is defined, or it is replaced by its value, which takes an at-keyword of the source. -/
theorem halts_aliasOrRule (h : TameReader none r) (hfront : r.cursor.peek 0 = some (.token t))
    (htype : t.type = .atKeyword) :
    Halts (fun n => aliasOrRule n t) { r with cursor := r.cursor.next.2 } (AtRuleRead r) := by
  have hs := lowers_next h hfront (h.front hfront).tail
  have hrule := halts_atRuleEnd hs t
  unfold aliasOrRule
  by_cases hmedia : Text.foldCase t.text = "media"
  · simp only [ne_eq, hmedia, not_true_eq_false, if_false]
    exact hrule
  · rcases (h.front hfront).cases with ⟨hsettled, _⟩ | ⟨_, ts, ht, hrest, hsource⟩
    · cases hsettled with
      | token _ _ hkeyword => exact (hmedia (hkeyword htype)).elim
    · cases ht
      simp only [ne_eq, hmedia, not_false_eq_true, if_true]
      refine .peek (.peek ?_)
      simp only [Cursor.checkDelim, peek_blankOffset_tokens hrest]
      cases hdefines : behindOperator? (·.isDelim "=") ts with
      | some value =>
          obtain ⟨operator, hdrop, hoperator⟩ := behindOperator?_eq_some.mp hdefines
          have hdollar : t.isDelim "$" = false := by simp [Token.isDelim, htype]
          have hvalue : definitionValue? (t :: ts) = some value := by
            simpa [definitionValue?, hdollar, htype] using hdefines
          simp only [hdrop, List.head?_cons, Option.map_some, Option.any_some, Value.isDelim,
            hoperator, if_true]
          refine halts_definition (haltsBehind r) hs.tame hrest hsource.source.behind hdefines
            (hsource.source.inDefinition hvalue) hs.effort ?_
          intro values u hvalues hu
          have hru := hs.follows.thenLower hu
          have hframes := settled_setAlias hru.tame.frames t.text hvalues
          exact .const (AtRuleRead.of_none
            ⟨⟨hru.tame.rest, hframes⟩, hru.limits, hru.nesting, hru.effort⟩)
      | none =>
          have hoperator : ((ts.dropWhile (·.type == .whitespace)).head?.map Value.token).any
              (·.isDelim "=") = false := by
            unfold behindOperator? at hdefines
            cases hdrop : ts.dropWhile (·.type == .whitespace) with
            | nil => rfl
            | cons operator value => simpa [hdrop, Value.isDelim] using hdefines
          simp only [hoperator]
          refine .look ?_
          cases halias : r.scopes.findAlias? t.text with
          | none => exact hrule
          | some values =>
              have hspliced : ∀ v ∈ Value.token ⟨.atKeyword, "media", t.position, .none⟩ ::
                  .token ⟨.whitespace, " ", t.position, .none⟩ :: values, v.Settled := by
                intro v hv
                rcases List.mem_cons.mp hv with rfl | hv
                · exact .token rfl rfl fun _ => foldCase_media
                · rcases List.mem_cons.mp hv with rfl | hv
                  · exact .token rfl rfl (by rintro ⟨⟩)
                  · exact settled_of_findAlias? h.frames halias v hv
              have hreplaceable : (Value.token t).isReplaceable = true := by
                simp [Value.isReplaceable, htype, hmedia]
              refine .const (AtRuleRead.of_none ⟨⟨?_, h.frames⟩, rfl, rfl, ?_⟩)
              · rw [Cursor.rest_splice]
                exact hs.tame.rest.splice hspliced
              · rw [Cursor.rest_splice, rest_of_peek hfront]
                exact effort_splice_lt hreplaceable hspliced [] _

/-- Without directives an at-rule is a rule, or it defines or uses an alias. -/
theorem halts_atRule (h : TameReader none r) (hfront : r.cursor.peek 0 = some (.token t))
    (htype : t.type = .atKeyword) :
    Halts atRule r (AtRuleRead r) := by
  have hdirective : Text.foldCase t.text ≠ "mixin" ∧ Text.foldCase t.text ≠ "include" := by
    rcases (h.front hfront).cases with ⟨hsettled, _⟩ | ⟨_, _, ht, _, hsource⟩
    · cases hsettled with
      | token _ _ hkeyword =>
          rw [hkeyword htype]
          decide
    · cases ht
      have hsource := hsource.source.directives t List.mem_cons_self
      simpa [Token.isDirective, htype] using hsource
  refine .of_run (fun n => bind_ok (consume_of_peek _ hfront htype)) ?_
  simp only [hdirective.1, hdirective.2, if_false]
  exact halts_aliasOrRule h hfront htype

/-- The block that a rule governs is tame. -/
def TameNext : Rule → Prop
  | .atRule rule => TameRule rule
  | .qualified rule => Tame none rule.block.contents

/-- What the search for the next rule gives: a rule with a tame block, or the end of the input. -/
def NextRead (r : Reader) : Option Rule → Reader → Prop
  | some rule, s => TameNext rule ∧ Lowers none r s
  | none, s => Follows none r s

theorem NextRead.behind {found : Option Rule} {u : Reader} (h : Lowers none r s)
    (k : NextRead s found u) :
    NextRead r found u := by
  cases found with
  | none => exact h.follows.thenFollow k
  | some rule => exact ⟨k.1, h.follows.thenLower k.2⟩

/-- Definitions and substitutions on the way to the next rule lower the effort. -/
theorem halts_nextRule (h : TameReader none r) :
    Halts nextRule r (NextRead r) := by
  induction heffort : effort r.cursor.rest using WellFoundedLT.induction generalizing r with
  | ind _ ih =>
      have hagain {s : Reader} (hs : Lowers none r s) : Halts nextRule s (NextRead r) :=
        (ih _ (heffort ▸ hs.effort) hs.tame rfl).mono fun found t ht => ht.behind hs
      refine .succ (fun n => by rw [nextRule]) ?_
      refine .after (meets_skipWhitespace h) fun _ s hs => .peek ?_
      have hqualified : Halts (fun n => do return some (.qualified (← qualifiedRule n))) s
          (NextRead r) := by
        refine (halts_qualifiedRule hs.tame).bind fun rule u hu => .pure ?_
        exact ⟨hu.1, hs.thenLower hu.2⟩
      cases hfront : s.cursor.peek 0 with
      | none => exact .pure hs
      | some v =>
          cases v with
          | token t =>
              by_cases hcomment : t.type = .cdo ∨ t.type = .cdc
              · simp only [hcomment, if_true]
                refine .after (meets_next hs.tame hfront (hs.tame.front hfront).tail) ?_
                rintro _ u ⟨_, hu⟩
                exact hagain (hs.thenLower hu)
              · simp only [hcomment, if_false]
                by_cases hkeyword : t.type = .atKeyword
                · simp only [hkeyword, if_true]
                  refine (halts_atRule hs.tame hfront hkeyword).bind fun found u hu => ?_
                  have hru := hs.thenLower hu.2
                  cases found with
                  | none => exact hagain hru
                  | some rule => exact .pure ⟨hu.1 rule rfl, hru⟩
                · simp only [hkeyword, if_false]
                  refine .peek ?_
                  by_cases hvariable : (s.cursor.checkDelim 0 "$" && s.cursor.check 1 .ident) = true
                  · simp only [hvariable, if_true]
                    refine (halts_variableUse hs.tame hvariable).bind fun _ u hu => ?_
                    exact hagain (hs.thenLower hu)
                  · simp only [hvariable]
                    exact hqualified
          | block opener contents closer => exact hqualified
          | call name args commas closer => exact hqualified
          | reference dollar name => exact hqualified

end Rules

/-! ## Bodies -/

section Bodies

variable {r s : Reader} {v : Value}

theorem endsIn_declarationEnd :
    EndsIn none declarationEnd fun _ r s => Follows none r s := by
  refine ⟨?_, fun hrs hst => hrs.thenFollow hst⟩
  intro read r h _
  unfold declarationEnd
  rw [bind_ok (peek_run _ r)]
  cases hfront : r.cursor.peek 0 with
  | none => exact Proceeds.refl h
  | some v =>
      simp only
      rw [bind_ok (peek_run _ r)]
      by_cases hend : r.cursor.atExpansionEnd = true
      · simp only [hend, if_true]
        exact Proceeds.refl h
      · by_cases hsemicolon : v.hasType .semicolon = true
        · simp only [hend, hsemicolon, if_true]
          exact (meets_next h hfront (h.front hfront).tail).bind fun _ s hs => hs.2.follows
        · simp only [hend, hsemicolon]
          exact ⟨rfl, v, hfront, goesOn_none v⟩

theorem halts_declaration (h : TameReader none r) :
    Halts declaration r fun _ s => Lowers none r s := by
  refine .after (meets_consume h _ _) fun name s hs => ?_
  refine .after (meets_skipWhitespace hs.tame) fun _ t ht => ?_
  refine .after (meets_consume ht.tame _ _) fun colon u hu => ?_
  refine ((haltsLists hu.tame).collect endsIn_declarationEnd [] nofun).bind fun values w hw => ?_
  cases splitImportant (trimWhitespace values) with
  | error d => exact .fail
  | ok value => exact .pure ((hs.lowerThenFollow ht).lowerThenFollow (hu.follows.thenFollow hw))

/-- A skipped statement ends where its values end, and skips at least one if there is one. -/
theorem halts_skipStatement (h : TameReader none r) (skipped : Bool) :
    Halts (fun n => skipStatement n skipped) r fun _ s =>
      Follows none r s ∧ ∀ v, r.cursor.peek 0 = some v → skipped = false → Lowers none r s := by
  induction heffort : effort r.cursor.rest using WellFoundedLT.induction generalizing r skipped with
  | ind _ ih =>
      have hagain {s : Reader} (hs : Lowers none r s) :
          Halts (fun n => skipStatement n true) s fun _ t => Follows none r t ∧
            ∀ v, r.cursor.peek 0 = some v → skipped = false → Lowers none r t := by
        refine (ih _ (heffort ▸ hs.effort) hs.tame true rfl).mono ?_
        rintro _ t ⟨ht, _⟩
        have hrt := hs.lowerThenFollow ht
        exact ⟨hrt.follows, fun _ _ _ => hrt⟩
      refine .succ (fun n => by rw [skipStatement]) (.peek ?_)
      cases hfront : r.cursor.peek 0 with
      | none => exact .pure ⟨.refl h, fun _ hv => by cases hv⟩
      | some v =>
          rw [hfront] at hagain
          refine .peek ?_
          by_cases hend : (skipped && r.cursor.atExpansionEnd) = true
          · simp only [hend, if_true]
            refine .pure ⟨.refl h, ?_⟩
            rintro _ _ rfl
            simp at hend
          · by_cases hsemicolon : v.hasType .semicolon = true
            · simp only [hend, hsemicolon, if_true]
              refine .after (meets_next h hfront (h.front hfront).tail) ?_
              rintro _ s ⟨_, hs⟩
              exact .pure ⟨hs.follows, fun _ _ _ => hs⟩
            · simp only [hend, hsemicolon]
              refine (halts_value h hfront).bind fun found s hs => ?_
              cases found with
              | none => exact hagain hs
              | some u =>
                  have hrecorded : Lowers none r
                      { s with events := .valueSkipped u.start :: s.events } :=
                    ⟨{ hs.tame with }, hs.limits, hs.nesting, hs.effort⟩
                  exact .of_run (fun n => rfl) (hagain hrecorded)

/-- Bodies come to an end from a reader. -/
structure HaltsBodies (r : Reader) : Prop where
  styleEntries : ∀ read : List Entry,
    Halts (fun n => styleEntries n read) r fun _ s => Follows none r s
  ruleList : ∀ read : List Entry, Halts (fun n => ruleList n read) r fun _ s => Follows none r s
  keyframes : ∀ read : List Entry, Halts (fun n => keyframes n read) r fun _ s => Follows none r s

/-- Bodies come to an end one block deeper. -/
def HaltsInside (r : Reader) : Prop :=
  r.nesting < r.limits.nestingDepth →
    ∀ s, TameReader none s → s.limits = r.limits → s.nesting = r.nesting + 1 → HaltsBodies s

/-- A body is read in a scope of its own, one block deeper, on a cursor of its own. -/
theorem halts_inside {f : Nat → Read (List Entry)} (h : TameReader none r) (hinside : HaltsInside r)
    {vs : List Value} (hvs : Tame none vs)
    (hf : ∀ s, HaltsBodies s → Halts f s fun _ t => Follows none s t) :
    Halts (fun n => within vs (nested (inScope (f n)))) r fun _ s => Follows none r s := by
  refine .within vs (.nested fun hroom => .inScope ?_)
  have hrest : (Cursor.ofValues vs r.cursor.depth).rest = vs := by
    simp [Cursor.rest, Cursor.ofValues, List.filterMap_map, Function.comp_def, Item.value?]
  have hbody : TameReader none { r with cursor := .ofValues vs r.cursor.depth } :=
    ⟨hrest.symm ▸ hvs, h.frames⟩
  have hin : TameReader none { r with
      cursor := .ofValues vs r.cursor.depth, nesting := r.nesting + 1,
      deepest := max r.deepest (r.nesting + 1), scopes := r.scopes.enter } :=
    { hbody.inScope with }
  refine (hf _ (hinside hroom _ hin rfl rfl)).mono ?_
  intro body s hs
  have hnesting : s.nesting = r.nesting + 1 := hs.nesting
  refine ⟨⟨h.rest, ?_⟩, hs.limits, ?_, le_rfl⟩
  · intro f hf
    exact hs.tame.frames f (Scopes.mem_frames_exit hf)
  · simp only [hnesting]
    omega

theorem halts_styleBlock (h : TameReader none r) (hinside : HaltsInside r) {b : Block}
    (hb : Tame none b.contents) :
    Halts (fun n => styleBlock n b) r fun _ s => Follows none r s :=
  .succ (fun n => by rw [styleBlock]) (halts_inside h hinside hb fun _ hs => hs.styleEntries [])

theorem halts_styleRule (h : TameReader none r) (hinside : HaltsInside r) {rule : QualifiedRule}
    (hrule : Tame none rule.block.contents) :
    Halts (fun n => styleRule n rule) r fun _ s => Follows none r s := by
  refine .succ (fun n => by rw [styleRule]) ?_
  cases Selector.parse rule.prelude with
  | error d => exact .fail
  | ok selectors => exact (halts_styleBlock h hinside hrule).bind fun _ s hs => .pure hs

theorem halts_resolveAtRule (h : TameReader none r) (hinside : HaltsInside r) {rule : AtRule}
    (hrule : TameRule rule) (inStyle : Bool) :
    Halts (fun n => resolveAtRule n rule inStyle) r fun _ s => Follows none r s := by
  refine .succ (fun n => by rw [resolveAtRule]) ?_
  cases hblock : rule.block with
  | none => exact .pure (.refl h)
  | some b =>
      have hb := hrule b hblock
      have hresolved {f : Nat → Read (List Entry)} (hf : Halts f r fun _ s => Follows none r s) :
          Halts (fun n => do return rule.resolved (← f n)) r fun _ s => Follows none r s :=
        hf.bind fun _ s hs => .pure hs
      have hstyle := hresolved (halts_styleBlock h hinside hb)
      have hkeyframes := hresolved (halts_inside h hinside hb fun _ hs => hs.keyframes [])
      have hrules := hresolved (halts_inside h hinside hb fun _ hs => hs.ruleList [])
      simp only
      cases BodyKind.ofName rule.name.text with
      | keyframes => exact hkeyframes
      | declarations => exact hstyle
      | rules =>
          cases inStyle with
          | true => exact hstyle
          | false => exact hrules

theorem HaltsInside.behind (h : HaltsInside r) (hs : Lowers none r s) :
    HaltsInside s := by
  intro hroom t ht hlimits hnesting
  rw [hs.limits, hs.nesting] at hroom
  exact h hroom t ht (hlimits.trans hs.limits) (hs.nesting ▸ hnesting)

/-- Every statement of a style block lowers the effort. -/
theorem halts_styleStatement (h : TameReader none r) (hinside : HaltsInside r)
    (hfront : r.cursor.peek 0 = some v) :
    Halts (fun n => styleStatement n v) r fun _ s => Lowers none r s := by
  have hskip : Halts (fun n => do skipStatement n false; return (none : Option Entry)) r
      fun _ s => Lowers none r s :=
    (halts_skipStatement h false).bind fun _ s hs => .pure (hs.2 v hfront rfl)
  cases v with
  | token t =>
      refine .succ (fun n => by rw [styleStatement]) ?_
      by_cases hblank : t.type = .whitespace ∨ t.type = .semicolon
      · simp only [hblank, if_true]
        exact .after (meets_next h hfront (h.front hfront).tail) fun _ s hs => .pure hs.2
      · simp only [hblank, if_false]
        by_cases hkeyword : t.type = .atKeyword
        · simp only [hkeyword, if_true]
          refine (halts_atRule h hfront hkeyword).bind fun found s hs => ?_
          cases found with
          | none => exact .pure hs.2
          | some rule =>
              have hrule := hs.1 rule rfl
              refine (halts_resolveAtRule hs.2.tame (hinside.behind hs.2) hrule true).bind ?_
              exact fun _ u hu => .pure (hs.2.lowerThenFollow hu)
        · simp only [hkeyword, if_false]
          refine .peek ?_
          by_cases hvariable : (r.cursor.checkDelim 0 "$" && r.cursor.check 1 .ident) = true
          · simp only [hvariable, if_true]
            exact (halts_variableUse h hvariable).bind fun _ s hs => .pure hs
          · by_cases hident : t.type = .ident
            · simp only [hvariable, hident, if_true]
              exact (halts_declaration h).bind fun _ s hs => .pure hs
            · by_cases hnesting : t.isDelim "&" = true
              · simp only [hvariable, hident, hnesting, if_true, if_false]
                refine (halts_qualifiedRule h).bind fun rule s hs => ?_
                refine (halts_styleRule hs.2.tame (hinside.behind hs.2) hs.1).bind ?_
                exact fun _ u hu => .pure (hs.2.lowerThenFollow hu)
              · simp only [hvariable, hident, hnesting, if_false]
                exact hskip
  | block opener contents closer => exact .succ (fun n => by rw [styleStatement]; rintro _ ⟨⟩) hskip
  | call name args commas closer => exact .succ (fun n => by rw [styleStatement]; rintro _ ⟨⟩) hskip
  | reference dollar name => exact .succ (fun n => by rw [styleStatement]; rintro _ ⟨⟩) hskip

/-- Bodies come to an end when those one block deeper do, by induction on the effort. -/
theorem haltsBodies_of_inside (h : TameReader none r) (hinside : HaltsInside r) :
    HaltsBodies r := by
  induction heffort : effort r.cursor.rest using WellFoundedLT.induction generalizing r with
  | ind _ ih =>
      have hagain {s : Reader} (hs : Lowers none r s) : HaltsBodies s :=
        ih _ (heffort ▸ hs.effort) hs.tame (hinside.behind hs) rfl
      refine ⟨?_, ?_, ?_⟩
      · intro read
        refine .succ (fun n => by rw [styleEntries]) (.peek ?_)
        cases hfront : r.cursor.peek 0 with
        | none => exact .pure (.refl h)
        | some v =>
            refine (halts_styleStatement h hinside hfront).bind fun found s hs => ?_
            cases found with
            | none => exact ((hagain hs).styleEntries _).mono fun _ u hu => hs.follows.thenFollow hu
            | some e => exact ((hagain hs).styleEntries _).mono fun _ u hu => hs.follows.thenFollow hu
      · intro read
        refine .succ (fun n => by rw [ruleList]) ((halts_nextRule h).bind ?_)
        intro found s hs
        cases found with
        | none => exact .pure hs
        | some rule =>
            have hnext {t : Reader} (ht : Follows none s t) (read : List Entry) :
                Halts (fun n => ruleList n read) t fun _ u => Follows none r u := by
              have hrt := hs.2.lowerThenFollow ht
              exact ((hagain hrt).ruleList read).mono fun _ u hu => hrt.follows.thenFollow hu
            cases rule with
            | qualified rule =>
                refine (halts_styleRule hs.2.tame (hinside.behind hs.2) hs.1).bind ?_
                exact fun e t ht => hnext ht _
            | atRule rule =>
                refine (halts_resolveAtRule hs.2.tame (hinside.behind hs.2) hs.1 false).bind ?_
                exact fun e t ht => hnext ht _
      · intro read
        refine .succ (fun n => by rw [keyframes]) ((halts_nextRule h).bind ?_)
        intro found s hs
        cases found with
        | none => exact .pure hs
        | some rule =>
            have hnext {t : Reader} (ht : Follows none s t) (read : List Entry) :
                Halts (fun n => keyframes n read) t fun _ u => Follows none r u := by
              have hrt := hs.2.lowerThenFollow ht
              exact ((hagain hrt).keyframes read).mono fun _ u hu => hrt.follows.thenFollow hu
            cases rule with
            | qualified rule =>
                refine (halts_styleBlock hs.2.tame (hinside.behind hs.2) hs.1).bind ?_
                exact fun e t ht => hnext ht _
            | atRule rule =>
                refine (halts_resolveAtRule hs.2.tame (hinside.behind hs.2) hs.1 true).bind ?_
                exact fun e t ht => hnext ht _

/-- Bodies come to an end, by induction on the number of blocks that may still be opened. -/
theorem haltsBodies (h : TameReader none r) :
    HaltsBodies r := by
  induction hroom : (r.limits.nestingDepth - r.nesting).toNat using Nat.strong_induction_on
    generalizing r with
  | _ room ih =>
      refine haltsBodies_of_inside h ?_
      intro hlt s hs hlimits hnesting
      refine ih _ ?_ hs rfl
      rw [hlimits, hnesting]
      omega

end Bodies

/-! ## Stylesheets -/

theorem tameReader_ofTokens {ts : List Token}
    (h : SettledSource (ts.filter fun t => t.type != .eof)) (limits : Limits) :
    TameReader none (.ofTokens ts limits) := by
  have hitems : (Cursor.ofTokens ts).items = (valuesOf ts).map .value := by
    unfold Cursor.ofTokens
    simp only
    split
    · rfl
    · rfl
  refine ⟨?_, ?_⟩
  · have hrest : (Reader.ofTokens ts limits).cursor.rest = valuesOf ts := by
      rw [Reader.ofTokens, Cursor.rest, hitems]
      simp [List.filterMap_map, Function.comp_def, Item.value?]
    rw [hrest]
    exact .of_source ⟨h, by rintro _ ⟨⟩⟩
  · intro f hf
    rw [List.mem_singleton.mp hf]
    exact settled_empty

end Substitution

/-- Substitution comes to an end: where no mixins are defined or included and all definitions of
variables and aliases are settled, there is a budget beyond which reading a stylesheet gives one and
the same outcome, which is a stylesheet or a fault. -/
theorem Sheet.substitution_terminates (limits : Limits) (file : String) (ts : List Token)
    (h : SettledSource (ts.filter fun t => t.type != .eof)) :
    ∃ bound outcome, outcome.1 ≠ .error .exhausted ∧
      ∀ budget, bound ≤ budget → Sheet.parseTokens budget limits file ts = outcome := by
  obtain ⟨bound, outcome, houtcome, hrun⟩ :=
    (Substitution.haltsBodies (Substitution.tameReader_ofTokens h limits)).ruleList []
  have hrun (budget : Nat) (hbudget : bound ≤ budget) :
      Read.ruleList budget [] (.ofTokens ts limits) = outcome :=
    hrun budget hbudget
  cases outcome with
  | ok rules s =>
      refine ⟨bound, (.ok ⟨file, rules⟩, s.events.reverse), by rintro ⟨⟩, ?_⟩
      intro budget hbudget
      unfold parseTokens run
      rw [hrun budget hbudget]
  | error stop s =>
      refine ⟨bound, (.error (locate file stop), s.events.reverse), ?_, ?_⟩
      · cases stop with
        | fault d => rintro ⟨⟩
        | exhausted => exact (houtcome rfl).elim
      · intro budget hbudget
        unfold parseTokens run
        rw [hrun budget hbudget]

/-- Variables in terms of each other, an alias in terms of a variable, and uses of them all. -/
def Sheet.definitionsInTurn : String :=
  "$w: v; $v: 2 $w; @narrow = screen and (x: $v); a \x7b b: f($v); \x7d @narrow \x7b c \x7b d: $v \x7d \x7d"

theorem Sheet.definitionsInTurn_terminates :
    SettledSource ((tokenize definitionsInTurn).filter fun t => t.type != .eof) ∧
      ∃ bound outcome, outcome.1 ≠ .error .exhausted ∧ ∀ budget, bound ≤ budget →
        Sheet.parseTokens budget {} "" (tokenize definitionsInTurn) = outcome := by
  have hdirectives : ((tokenize definitionsInTurn).filter fun t => t.type != .eof).all
      (!·.isDirective) = true := by
    cbv
  have hdefinitions :
      definesSettled ((tokenize definitionsInTurn).filter fun t => t.type != .eof) = true := by
    cbv
  have hsource : SettledSource ((tokenize definitionsInTurn).filter fun t => t.type != .eof) := by
    refine ⟨?_, hdefinitions⟩
    intro t ht
    simpa using List.all_eq_true.mp hdirectives t ht
  exact ⟨hsource, substitution_terminates {} "" _ hsource⟩

/-- A variable that stands for itself does not have a settled value. -/
example : definesSettled (tokenize "$w:v;$v:$$w;a\x7bb:$v\x7d") = false := by
  cbv

end Cascade
