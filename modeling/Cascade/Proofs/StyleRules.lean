import Cascade.Proofs.Layout
import Cascade.Proofs.SelectorLists

/-!
# The selectors of style rules

Every style rule of a stylesheet that has been read carries the selectors that its
prelude spells, at any depth, and all values are made of the tokens of the source.

**Method.**  The triple of `Proofs.SoundReading` is carried through the bodies of
rules once more, with a result that speaks of all parts of an entry (`Entry.Sound`).

**Results.**
* `sound_bodies`: bodies are read to entries whose parts are sound.
* `Sheet.sound_of_ok`: the same of a whole stylesheet.
* `Sheet.faithful_of_ok`: its style rules are faithful to their preludes.
* `resolveSelectors_list_ne_nil`: resolving the selectors of a prelude leaves at least one.
-/

namespace Cascade

namespace Entry

/-- What stands in the entry before its body is made of tokens with `P`, and a style rule has the
selectors of its prelude.  All values have been read. -/
def HeadSound (P : Token → Prop) : Entry → Prop
  | .declaration d => Read.AllSound P d.value
  | .style prelude list _ => Read.AllSound P prelude ∧ Selector.parse prelude = .ok list
  | .statement _ prelude => Read.AllSound P prelude
  | .group _ prelude _ _ _ => Read.AllSound P prelude
  | .keyframe prelude _ _ _ => Read.AllSound P prelude
  | .loose _ => False

/-- Every part of the entry has a sound head. -/
def Sound (P : Token → Prop) (e : Entry) : Prop :=
  ∀ x, PartOf x e → x.HeadSound P

/-- Every style rule in the entry has the selectors of its prelude, which is grouped. -/
def Faithful (P : Token → Prop) (e : Entry) : Prop :=
  ∀ prelude list body, PartOf (.style prelude list body) e →
    Read.AllSound P prelude ∧ Selector.parse prelude = .ok list

variable {P : Token → Prop}

theorem Sound.faithful {e : Entry} (h : e.Sound P) :
    e.Faithful P :=
  fun _ _ _ hpart => h _ hpart

theorem Sound.of_mem_body {e x : Entry} (h : e.Sound P) (hx : x ∈ e.body) :
    x.Sound P :=
  fun y hpart => h y (hpart.trans (.inside .self hx))

theorem Faithful.of_mem_body {e x : Entry} (h : e.Faithful P) (hx : x ∈ e.body) :
    x.Faithful P :=
  fun prelude list body hpart => h prelude list body (hpart.trans (.inside .self hx))

/-- An entry is sound if its head is, and its body. -/
theorem sound_of_body {e : Entry} (hhead : e.HeadSound P) (hbody : ∀ x ∈ e.body, x.Sound P) :
    e.Sound P := by
  intro x hpart
  cases hpart with
  | self => exact hhead
  | inside hpart hmem => exact hbody _ hmem _ hpart

theorem sound_resolved {r : AtRule} {body : List Entry} (hprelude : Read.AllSound P r.prelude)
    (hbody : ∀ x ∈ body, x.Sound P) :
    (r.resolved body).Sound P := by
  unfold AtRule.resolved
  split
  · exact sound_of_body hprelude hbody
  · exact sound_of_body hprelude nofun

end Entry

/-! ## Reading bodies -/

namespace Read

variable {P : Token → Prop}

/-- All entries are sound. -/
abbrev SoundEntries (P : Token → Prop) (es : List Entry) : Prop :=
  ∀ e ∈ es, e.Sound P

theorem SoundEntries.cons {e : Entry} {es : List Entry} (he : e.Sound P)
    (hes : SoundEntries P es) :
    SoundEntries P (e :: es) :=
  List.forall_mem_cons.mpr ⟨he, hes⟩

theorem SoundEntries.reverse {es : List Entry} (h : SoundEntries P es) :
    SoundEntries P es.reverse :=
  fun e he => h e (List.mem_reverse.mp he)

/-- The computations that read bodies give sound entries at a budget. -/
structure SoundBodies (P : Token → Prop) (n : Nat) : Prop where
  styleBlock : ∀ b, (∀ v ∈ b.contents, v.AllTokens P) → Careful P (styleBlock n b) (SoundEntries P)
  styleEntries : ∀ read, SoundEntries P read → Careful P (styleEntries n read) (SoundEntries P)
  styleStatement : ∀ v, Careful P (styleStatement n v)
    fun found => ∀ e, found = some e → e.Sound P
  styleRule : ∀ rule, QualifiedSound P rule → Careful P (styleRule n rule) (Entry.Sound P)
  resolveAtRule : ∀ rule inStyle, AtRuleSound P rule →
    Careful P (resolveAtRule n rule inStyle) (Entry.Sound P)
  ruleList : ∀ read, SoundEntries P read → Careful P (ruleList n read) (SoundEntries P)
  keyframes : ∀ read, SoundEntries P read → Careful P (keyframes n read) (SoundEntries P)

theorem sound_styleStatement (hP : AliasClosed P) {n : Nat} (ih : SoundBodies P n) (v : Value) :
    Careful P (styleStatement (n + 1) v) fun found => ∀ e, found = some e → e.Sound P := by
  cases v with
  | token t =>
      rw [Read.styleStatement]
      split
      · exact .bind careful_next fun _ _ => .none
      · split
        · refine .bind (careful_atRule hP n) fun found hfound => ?_
          split
          · exact .none
          · exact .bind (ih.resolveAtRule _ _ (hfound _ rfl)) fun e he => .some he
        · refine .bind (careful_peek _) fun isStart _ => ?_
          split
          · exact .bind (carefulValues n).variableUse fun _ _ => .none
          · split
            · exact .bind (careful_declaration n) fun d hd => .some (Entry.sound_of_body hd (List.forall_mem_nil _))
            · split
              · refine .bind (careful_qualifiedRule n) fun rule hrule => ?_
                exact .bind (ih.styleRule rule hrule) fun e he => .some he
              · exact .bind (careful_skipStatement n _) fun _ _ => .none
  | _ =>
      rw [Read.styleStatement]
      · exact .bind (careful_skipStatement n _) fun _ _ => .none
      · rintro _ ⟨⟩

theorem sound_resolveAtRule {n : Nat} (ih : SoundBodies P n) {rule : AtRule} (inStyle : Bool)
    (hrule : AtRuleSound P rule) :
    Careful P (resolveAtRule (n + 1) rule inStyle) (Entry.Sound P) := by
  rw [Read.resolveAtRule]
  split
  · exact .pure (Entry.sound_resolved hrule.prelude (List.forall_mem_nil _))
  · next b hblock =>
      have hcontents := contents_of_toValue (hrule.block b hblock)
      have hgroup {x : Read (List Entry)} (hx : Careful P x (SoundEntries P)) :
          Careful P (do return rule.resolved (← x)) (Entry.Sound P) :=
        .bind hx fun body hbody => .pure (Entry.sound_resolved hrule.prelude hbody)
      split
      · exact hgroup (careful_body hcontents (ih.keyframes [] (List.forall_mem_nil _)) (idle_keyframes (List.forall_mem_nil _) n))
      · exact hgroup (careful_body hcontents (ih.ruleList [] (List.forall_mem_nil _)) (idle_ruleList (List.forall_mem_nil _) n))
      · exact hgroup (ih.styleBlock b hcontents)

theorem sound_bodies (hP : AliasClosed P) (n : Nat) :
    SoundBodies P n := by
  induction n with
  | zero =>
      constructor <;> intros <;> simp only [styleBlock_zero, styleEntries_zero, styleStatement_zero,
        styleRule_zero, resolveAtRule_zero, ruleList_zero, keyframes_zero] <;> exact careful_exhausted
  | succ n ih =>
      refine ⟨?_, ?_, sound_styleStatement hP ih, ?_, fun _ => sound_resolveAtRule ih, ?_, ?_⟩
      · intro b hb
        rw [Read.styleBlock]
        exact careful_body hb (ih.styleEntries [] (List.forall_mem_nil _)) (idle_styleEntries (List.forall_mem_nil _) n)
      · intro read hread
        rw [Read.styleEntries]
        refine .bind (careful_peek _) fun front _ => ?_
        split
        · exact .pure hread.reverse
        · refine .bind (ih.styleStatement _) fun found hfound => ?_
          split
          · exact ih.styleEntries _ (.cons (hfound _ rfl) hread)
          · exact ih.styleEntries _ hread
      · intro rule hrule
        rw [Read.styleRule]
        split
        · next herror => exact careful_fail ((Selector.sound_parse hrule.prelude).2 _ herror)
        · next hok =>
            refine .bind (ih.styleBlock _ (contents_of_toValue hrule.block)) fun body hbody => .pure ?_
            exact Entry.sound_of_body ⟨hrule.prelude, hok⟩ hbody
      · intro read hread
        rw [Read.ruleList]
        refine .bind (careful_nextRule hP n) fun found hfound => ?_
        split
        · exact .pure hread.reverse
        · refine .bind (ih.styleRule _ (hfound _ rfl)) fun e he => ?_
          exact ih.ruleList _ (.cons he hread)
        · refine .bind (ih.resolveAtRule _ _ (hfound _ rfl)) fun e he => ?_
          exact ih.ruleList _ (.cons he hread)
      · intro read hread
        rw [Read.keyframes]
        refine .bind (careful_nextRule hP n) fun found hfound => ?_
        split
        · exact .pure hread.reverse
        · next rule =>
            have hrule : QualifiedSound P rule := hfound _ rfl
            refine .bind (ih.styleBlock _ (contents_of_toValue hrule.block)) fun body hbody => ?_
            exact ih.keyframes _ (.cons (Entry.sound_of_body hrule.prelude hbody) hread)
        · refine .bind (ih.resolveAtRule _ _ (hfound _ rfl)) fun e he => ?_
          exact ih.keyframes _ (.cons he hread)

end Read

/-- All that a stylesheet has been read to is made of the tokens it was read from. -/
theorem Sheet.sound_of_ok {P : Token → Prop} (hP : AliasClosed P) {ts : List Token}
    (hts : ∀ t ∈ ts, P t) (hend : ∃ t ∈ ts, t.type = .eof) {budget : Nat} {limits : Limits}
    {file : String} {sheet : Sheet} (h : (parseTokens budget limits file ts).1 = .ok sheet) :
    ∀ e ∈ sheet.rules, e.Sound P := by
  have hsafe := (Read.sound_bodies hP budget).ruleList [] (List.forall_mem_nil _) _
    (Reader.sound_ofTokens limits hts hend)
  unfold parseTokens run at h
  cases hrun : Read.ruleList budget [] (.ofTokens ts limits) with
  | ok rules s =>
      rw [hrun] at h hsafe
      cases h
      exact hsafe.2
  | error stop s =>
      rw [hrun] at h
      cases h

/-- The style rules of a stylesheet that has been read have the selectors of their preludes. -/
theorem Sheet.faithful_of_ok {P : Token → Prop} (hP : AliasClosed P) {ts : List Token}
    (hts : ∀ t ∈ ts, P t) (hend : ∃ t ∈ ts, t.type = .eof) {budget : Nat} {limits : Limits}
    {file : String} {sheet : Sheet} (h : (parseTokens budget limits file ts).1 = .ok sheet) :
    ∀ e ∈ sheet.rules, e.Faithful P :=
  fun e he => (sound_of_ok hP hts hend h e he).faithful

/-! ## Selectors of a prelude -/

/-- Wherever it stands, a rule with a selector has one when it is written. -/
theorem Output.resolveSelectors_list_ne_nil {list : SelectorList} (h : list ≠ []) (minify : Bool)
    (parents : List (List Char)) :
    resolveSelectors minify parents list ≠ [] := by
  obtain ⟨s, rest, rfl⟩ := List.exists_cons_of_ne_nil h
  rw [resolveSelectors_eq, List.flatMap_cons]
  cases parents with
  | nil => simp
  | cons parent others => split <;> simp

end Cascade
