import Cascade.Proofs.Outcomes
import Cascade.Proofs.SelectorReading

/-!
# Selector lists

A prelude is cut at its commas before its selectors are read, by a count of the
brackets that are open.  The cutting and the reading agree on what is nested.

**Method.**  `Uncut depth us` says that the values are passed at a depth without a
cut and back to that depth.  A selector passes at depth zero; its arguments pass at
any other depth.

**Results.**
* `uncut_complexSelector`: no selector is cut.
* `Selector.parse_eq_ok_iff`: a prelude is read to a selector list exactly when it
  writes this list.
-/

namespace Cascade

/-! ## What is not cut -/

/-- The values are passed without a cut, and leave the depth as it is. -/
def Uncut (depth : Nat) (us : List Value) : Prop :=
  ∀ rest current place,
    Selector.splitFrom (us ++ rest) depth current place =
      Selector.splitFrom rest depth (us.reverse ++ current) place

namespace Uncut

variable {depth : Nat} {us vs : List Value}

theorem nil : Uncut depth [] :=
  fun _ _ _ => rfl

theorem append (hus : Uncut depth us) (hvs : Uncut depth vs) :
    Uncut depth (us ++ vs) := by
  intro rest current place
  rw [List.append_assoc, hus, hvs, List.reverse_append, List.append_assoc]

theorem cons {v : Value} (hv : Uncut depth [v]) (hvs : Uncut depth vs) :
    Uncut depth (v :: vs) :=
  append hv hvs

/-- The types of the tokens that neither cut nor change the depth. -/
def quietTypes : List TokenType :=
  [.ident, .string, .delim, .hash, .colon, .whitespace, .openBrace, .closeBrace]

theorem value {v : Value} (hcomma : v.hasType .comma = false ∨ depth ≠ 0)
    (hdepth : Selector.depthAfter depth v = depth) :
    Uncut depth [v] := by
  intro rest current place
  have hcut : (v.hasType .comma && depth == 0) = false := by
    rcases hcomma with h | h <;> simp [h]
  rw [List.singleton_append, Selector.splitFrom, hcut, hdepth]
  rfl

theorem quiet {t : Token} (ht : t.type ∈ quietTypes) :
    Uncut depth [.token t] := by
  have hne : ∀ type ∉ quietTypes, (Value.token t).hasType type = false := by
    intro type htype
    refine beq_eq_false_iff_ne.mpr ?_
    rintro rfl
    exact htype ht
  refine value (.inl (hne _ (by decide))) ?_
  rw [Selector.depthAfter, hne _ (by decide), hne _ (by decide), hne _ (by decide), hne _ (by decide),
    hne _ (by decide)]
  rfl

/-- A group that counts is passed where its contents are passed one level deeper. -/
theorem group {opener closer : Token}
    (hopener : opener.type ∈ [TokenType.openParen, .openBracket, .function])
    (hcloser : closer.type ∈ [TokenType.closeParen, .closeBracket]) (hus : Uncut (depth + 1) us) :
    Uncut depth (.token opener :: (us ++ [.token closer])) := by
  intro rest current place
  have hopened : Selector.depthAfter depth (.token opener) = depth + 1 := by
    simp only [List.mem_cons, List.not_mem_nil, or_false] at hopener
    rcases hopener with h | h | h <;> simp [Selector.depthAfter, Value.hasType, h]
  have hclosed : Selector.depthAfter (depth + 1) (.token closer) = depth := by
    simp only [List.mem_cons, List.not_mem_nil, or_false] at hcloser
    rcases hcloser with h | h <;> simp [Selector.depthAfter, Value.hasType, h]
  have hcomma : (Value.token opener).hasType .comma = false := by
    simp only [List.mem_cons, List.not_mem_nil, or_false] at hopener
    rcases hopener with h | h | h <;> simp [Value.hasType, h]
  simp only [List.cons_append, List.append_assoc, List.nil_append]
  rw [Selector.splitFrom, hcomma, hopened, Bool.false_and, if_neg Bool.false_ne_true, hus,
    Selector.splitFrom, hclosed]
  simp

end Uncut

/-! ## Selectors are not cut -/

theorem uncut_balanced {us : List Value} (hus : BalancedRun us) (depth : Nat) :
    Uncut (depth + 1) us := by
  induction hus generalizing depth with
  | nil => exact .nil
  | @inner v vs hv _ ih =>
      refine .cons (.value (.inr (Nat.succ_ne_zero depth)) ?_) (ih depth)
      cases v with
      | token t =>
          obtain ⟨hopens, hcloses⟩ := hv t rfl
          cases htype : t.type <;>
            simp_all [Selector.depthAfter, Value.hasType, TokenType.closer?, TokenType.partner?,
              TokenType.isCloser]
      | _ => rfl
  | @group opener closer us vs hpair _ _ ihus ihvs =>
      have hgroup : Uncut (depth + 1) (.token opener :: (us ++ [.token closer])) := by
        cases htype : opener.type <;>
          simp only [htype, TokenType.closer?, TokenType.partner?, Option.some.injEq, reduceCtorEq]
            at hpair
        case openBrace =>
          refine .cons (.quiet ?_) (.append (ihus depth) (.quiet ?_))
          · simp [htype, Uncut.quietTypes]
          · simp [← hpair, Uncut.quietTypes]
        all_goals
          refine .group ?_ ?_ (ihus (depth + 1))
          · simp [htype]
          · simp [← hpair]
      simpa using hgroup.append (ihvs depth)

theorem uncut_blanks {us : List Value} (hus : AllBlank us) (depth : Nat) :
    Uncut depth us := by
  induction us with
  | nil => exact .nil
  | cons v us ih =>
      refine .cons ?_ (ih fun w hw => hus w (List.mem_cons_of_mem v hw))
      have hv := hus v List.mem_cons_self
      cases v with
      | token t =>
          have ht : t.type = .whitespace := beq_iff_eq.mp hv
          exact .quiet (by simp [ht, Uncut.quietTypes])
      | _ => cases hv

theorem uncut_all {α : Type} {W : α → List Value → Prop} {as : List α} {us : List Value} {depth : Nat}
    (hW : ∀ a vs, W a vs → Uncut depth vs) (h : WrittenAll W as us) :
    Uncut depth us := by
  induction h with
  | nil => exact .nil
  | cons ha _ ih => exact .append (hW _ _ ha) ih

theorem uncut_tokens {ts : List Token} (h : ∀ t ∈ ts, t.type ∈ Uncut.quietTypes) (depth : Nat) :
    Uncut depth (ts.map .token) := by
  induction ts with
  | nil => exact .nil
  | cons t ts ih =>
      exact .cons (.quiet (h t List.mem_cons_self)) (ih fun u hu => h u (List.mem_cons_of_mem t hu))

theorem quiet_of_isDelim {t : Token} {text : String} (h : t.isDelim text = true) :
    t.type ∈ Uncut.quietTypes := by
  have ht : t.type = .delim ∧ t.text = text := by simpa [Token.isDelim] using h
  simp [ht, Uncut.quietTypes]

theorem quiet_of_isName {t : Token} (h : (Value.token t).isName = true) :
    t.type ∈ Uncut.quietTypes := by
  rcases Bool.or_eq_true_iff.mp h with hident | hstar
  · have ht : t.type = .ident := beq_iff_eq.mp hident
    simp [ht, Uncut.quietTypes]
  · exact quiet_of_isDelim hstar

theorem uncut_qualifier {q : Option Qualifier} (hq : ∀ p ∈ q, p.Proper) (depth : Nat) :
    Uncut depth (qualifierYield q) := by
  cases q with
  | none => exact .nil
  | some q =>
      have hproper := hq q rfl
      refine uncut_tokens (fun t ht => ?_) depth
      rcases List.mem_append.mp ht with hname | hbar
      · exact quiet_of_isName (hproper.name t (Option.mem_toList.mp hname))
      · rw [List.mem_singleton.mp hbar]
        exact quiet_of_isDelim hproper.bar

theorem uncut_typeSelector {t : TypeSelector} (ht : t.Proper) (depth : Nat) :
    Uncut depth t.yield := by
  cases t with
  | named q ident =>
      exact .append (uncut_qualifier ht.1 depth) (.quiet (by simp [ht.2, Uncut.quietTypes]))
  | universal q star =>
      exact .append (uncut_qualifier ht.1 depth) (.quiet (quiet_of_isDelim ht.2))

theorem uncut_matcher {m : Matcher} (hm : m.Proper) (depth : Nat) :
    Uncut depth m.yield := by
  refine uncut_tokens (fun t ht => ?_) depth
  rcases List.mem_append.mp ht with hsign | hequals
  · simp [(hm.sign t (Option.mem_toList.mp hsign)).1, Uncut.quietTypes]
  · rw [List.mem_singleton.mp hequals]
    exact quiet_of_isDelim hm.equals

theorem uncut_attribute {a : Attribute} {us : List Value} (ha : a.WrittenAs us) :
    Uncut 0 us := by
  have hident : ∀ {t : Token}, t.type = .ident → Uncut 1 [.token t] :=
    fun ht => .quiet (by simp [ht, Uncut.quietTypes])
  cases ha with
  | block _ _ _ => exact .value (.inl rfl) rfl
  | flat hopener ha =>
      have hopens : a.opener.type ∈ [TokenType.openParen, .openBracket, .function] := by
        simp [hopener]
      cases ha with
      | plain hbefore hq hname hbehind hcloser =>
          have hinner := (uncut_blanks hbefore 1).append ((uncut_qualifier hq 1).append
            ((hident hname).append (uncut_blanks hbehind 1)))
          simpa using Uncut.group hopens (by simp [hcloser]) hinner
      | @valued _ _ value _ _ _ modifier _ _ _ _ _ hbefore hq hname hbehind hm hblanks hvalue hblanks'
          hword hblanks'' hcloser =>
          have hvalue' : Uncut 1 [.token value] :=
            .quiet (by rcases hvalue with h | h <;> simp [h, Uncut.quietTypes])
          have hmodifier : Uncut 1 (modifier.toList.map .token) := by
            refine uncut_tokens (fun t ht => ?_) 1
            simp [(hword t (Option.mem_toList.mp ht)).1, Uncut.quietTypes]
          have hinner := (uncut_blanks hbefore 1).append ((uncut_qualifier hq 1).append
            ((hident hname).append ((uncut_blanks hbehind 1).append ((uncut_matcher hm 1).append
              ((uncut_blanks hblanks 1).append (hvalue'.append ((uncut_blanks hblanks' 1).append
                (hmodifier.append (uncut_blanks hblanks'' 1)))))))))
          simpa using Uncut.group hopens (by simp [hcloser]) hinner

theorem uncut_pseudoClass {p : PseudoClass} {us : List Value} (hp : p.WrittenAs us) :
    Uncut 0 us := by
  cases hp with
  | plain hcolon hname =>
      exact .cons (.quiet (by simp [hcolon, Uncut.quietTypes]))
        (.quiet (by simp [hname, Uncut.quietTypes]))
  | function hcolon hname hrun hcloser =>
      refine .cons (.quiet (by simp [hcolon, Uncut.quietTypes])) ?_
      exact .group (by simp [hname]) (by simp [hcloser]) (uncut_balanced hrun 0)
  | call hcolon =>
      exact .cons (.quiet (by simp [hcolon, Uncut.quietTypes])) (.value (.inl rfl) rfl)

theorem uncut_subclass {p : Subclass} {us : List Value} (hp : p.WrittenAs us) :
    Uncut 0 us := by
  cases hp with
  | @id hash hhash =>
      have htype : hash.type = .hash := beq_iff_eq.mp (Bool.and_eq_true_iff.mp hhash).1
      exact .quiet (by simp [htype, Uncut.quietTypes])
  | className hdot hident =>
      exact .cons (.quiet (quiet_of_isDelim hdot)) (.quiet (by simp [hident, Uncut.quietTypes]))
  | attr ha => exact uncut_attribute ha
  | pseudo hp => exact uncut_pseudoClass hp
  | nesting hampersand => exact .quiet (quiet_of_isDelim hampersand)

theorem uncut_pseudoElement {e : PseudoElement} {us : List Value} (he : e.WrittenAs us) :
    Uncut 0 us := by
  cases he with
  | intro hcolon helement hclasses =>
      refine .cons (.quiet (by simp [hcolon, Uncut.quietTypes])) ?_
      exact (uncut_pseudoClass helement).append (uncut_all (fun _ _ => uncut_pseudoClass) hclasses)

theorem uncut_compound {k : Compound} {us : List Value} (hk : k.WrittenAs us) :
    Uncut 0 us := by
  cases hk with
  | intro htype hps hes _ =>
      refine .append ?_ (.append (uncut_all (fun _ _ => uncut_subclass) hps)
        (uncut_all (fun _ _ => uncut_pseudoElement) hes))
      cases hcase : k.type with
      | none => exact .nil
      | some t => exact uncut_typeSelector (htype t hcase) 0

theorem uncut_part {p : SelectorPart} {us : List Value} (hp : p.WrittenAs us) :
    Uncut 0 us := by
  cases hp with
  | @intro us vs hkind hk =>
      refine .append ?_ (uncut_compound hk)
      revert hkind
      generalize p.combinator = kind, p.tokens = tokens
      intro hkind
      cases hkind with
      | blank hblanks _ => exact uncut_blanks hblanks 0
      | sign _ ht hbefore hbehind =>
          exact (uncut_blanks hbefore 0).append
            (.cons (.quiet (quiet_of_isDelim ht)) (uncut_blanks hbehind 0))
      | column ht hu hbefore hbehind =>
          exact (uncut_blanks hbefore 0).append (.cons (.quiet (quiet_of_isDelim ht))
            (.cons (.quiet (quiet_of_isDelim hu)) (uncut_blanks hbehind 0)))

theorem uncut_complexSelector {s : ComplexSelector} {us : List Value} (hs : s.WrittenAs us) :
    Uncut 0 us := by
  cases hs with
  | intro hk hps => exact (uncut_compound hk).append (uncut_all (fun _ _ => uncut_part) hps)

/-! ## Blanks around a selector -/

/-- The last value is no blank. -/
def EndsSolid (us : List Value) : Prop :=
  ∃ v, us.getLast? = some v ∧ v.isWhitespace = false

theorem EndsSolid.of_append {us vs : List Value} (h : EndsSolid vs) :
    EndsSolid (us ++ vs) := by
  obtain ⟨v, hlast, hv⟩ := h
  exact ⟨v, by rw [List.getLast?_append, hlast]; rfl, hv⟩

theorem EndsSolid.of_cons {u : Value} {vs : List Value} (h : EndsSolid vs) :
    EndsSolid (u :: vs) :=
  (of_append h : EndsSolid ([u] ++ vs))

theorem EndsSolid.token {t : Token} (ht : t.type ≠ .whitespace) :
    EndsSolid [.token t] :=
  ⟨.token t, rfl, by simp [Value.isWhitespace, Value.hasType, ht]⟩

theorem EndsSolid.of_all {α : Type} {W : α → List Value → Prop} {as : List α} {us : List Value}
    (hW : ∀ a vs, W a vs → EndsSolid vs) (h : WrittenAll W as us) (has : as ≠ []) :
    EndsSolid us := by
  induction h with
  | nil => exact absurd rfl has
  | @cons a as us vs ha has' ih =>
      cases has' with
      | nil =>
          rw [List.append_nil]
          exact hW _ _ ha
      | cons _ _ => exact .of_append (ih (List.cons_ne_nil _ _))

theorem endsSolid_attribute {a : Attribute} {us : List Value} (ha : a.WrittenAs us) :
    EndsSolid us := by
  have hbracket : ∀ {t : Token}, t.type = .closeBracket → EndsSolid [.token t] :=
    fun ht => .token (by simp [ht])
  cases ha with
  | block _ _ _ => exact ⟨_, rfl, rfl⟩
  | flat _ ha =>
      refine .of_cons ?_
      cases ha with
      | plain _ _ _ _ hcloser =>
          exact .of_append (.of_append (.of_cons (.of_append (hbracket hcloser))))
      | valued _ _ _ _ _ _ _ _ _ _ hcloser =>
          refine .of_append (.of_append (.of_cons (.of_append (.of_append (.of_append ?_)))))
          exact .of_cons (.of_append (.of_append (.of_append (hbracket hcloser))))

theorem endsSolid_pseudoClass {p : PseudoClass} {us : List Value} (hp : p.WrittenAs us) :
    EndsSolid us := by
  cases hp with
  | plain _ hname => exact .of_cons (.token (by simp [hname]))
  | function _ _ _ hcloser => exact .of_cons (.of_cons (.of_append (.token (by simp [hcloser]))))
  | call _ => exact ⟨_, rfl, rfl⟩

theorem endsSolid_subclass {p : Subclass} {us : List Value} (hp : p.WrittenAs us) :
    EndsSolid us := by
  cases hp with
  | @id hash hhash =>
      have htype : hash.type = .hash := beq_iff_eq.mp (Bool.and_eq_true_iff.mp hhash).1
      exact .token (by simp [htype])
  | className _ hident => exact .of_cons (.token (by simp [hident]))
  | attr ha => exact endsSolid_attribute ha
  | pseudo hp => exact endsSolid_pseudoClass hp
  | @nesting ampersand h => exact ⟨_, rfl, Scan.isWhitespace_of_isDelim (v := .token ampersand) h⟩

theorem endsSolid_pseudoElement {e : PseudoElement} {us : List Value} (he : e.WrittenAs us) :
    EndsSolid us := by
  cases he with
  | @intro us vs _ helement hclasses =>
      refine .of_cons ?_
      cases hcase : e.classes with
      | nil =>
          rw [hcase] at hclasses
          cases hclasses
          rw [List.append_nil]
          exact endsSolid_pseudoClass helement
      | cons p ps =>
          refine .of_append (.of_all (fun _ _ => endsSolid_pseudoClass) hclasses ?_)
          simp [hcase]

theorem endsSolid_typeSelector {t : TypeSelector} (ht : t.Proper) :
    EndsSolid t.yield := by
  cases t with
  | named q ident => exact .of_append (.token (by simp [ht.2]))
  | universal q star =>
      exact .of_append ⟨_, rfl, Scan.isWhitespace_of_isDelim (v := .token star) ht.2⟩

theorem endsSolid_compound {k : Compound} {us : List Value} (hk : k.WrittenAs us) :
    EndsSolid us := by
  cases hk with
  | @intro us vs htype hps hes hempty =>
      by_cases hpseudos : k.pseudos = []
      · rw [hpseudos] at hes
        cases hes
        rw [List.append_nil]
        by_cases hsubclasses : k.subclasses = []
        · rw [hsubclasses] at hps
          cases hps
          rw [List.append_nil]
          cases hcase : k.type with
          | none => simp [Compound.isEmpty, hcase, hpseudos, hsubclasses] at hempty
          | some t => exact endsSolid_typeSelector (htype t hcase)
        · exact .of_append (.of_all (fun _ _ => endsSolid_subclass) hps hsubclasses)
      · exact .of_append (.of_append (.of_all (fun _ _ => endsSolid_pseudoElement) hes hpseudos))

theorem endsSolid_complexSelector {s : ComplexSelector} {us : List Value} (hs : s.WrittenAs us) :
    EndsSolid us := by
  cases hs with
  | @intro first others us vs hk hps =>
      by_cases hothers : others = []
      · subst hothers
        cases hps
        rw [List.append_nil]
        exact endsSolid_compound hk
      · refine .of_append (.of_all ?_ hps hothers)
        rintro p ws ⟨_, hk⟩
        exact .of_append (endsSolid_compound hk)

theorem dropWhile_blanks {blanks vs : List Value} (hblanks : AllBlank blanks)
    (hvs : ∀ v ∈ vs.head?, v.isWhitespace = false) :
    (blanks ++ vs).dropWhile Value.isWhitespace = vs := by
  rw [List.dropWhile_append_of_pos hblanks]
  cases vs with
  | nil => rfl
  | cons v vs => exact List.dropWhile_cons_of_neg (by simp [hvs v rfl])

/-- Trimming takes the blanks off a selector. -/
theorem trimWhitespace_of_solid {before us behind : List Value} (hbefore : AllBlank before)
    (hbehind : AllBlank behind) (hfirst : ∀ v ∈ us.head?, v.isWhitespace = false)
    (hlast : EndsSolid us) :
    trimWhitespace (before ++ (us ++ behind)) = us := by
  obtain ⟨v, hv, hsolid⟩ := hlast
  have hhead : ∀ w ∈ (us ++ behind).head?, w.isWhitespace = false := by
    cases us with
    | nil => cases hv
    | cons u us => exact hfirst
  have hreverse : AllBlank behind.reverse := fun w hw => hbehind w (List.mem_reverse.mp hw)
  rw [trimWhitespace, dropWhile_blanks hbefore hhead, List.reverse_append, dropWhile_blanks hreverse,
    List.reverse_reverse]
  intro w hw
  rw [List.head?_reverse, hv] at hw
  cases hw
  exact hsolid

/-- What trimming takes off are blanks. -/
theorem exists_blanks (vs : List Value) :
    ∃ before behind, AllBlank before ∧ AllBlank behind ∧
      vs = before ++ (trimWhitespace vs ++ behind) := by
  refine ⟨vs.takeWhile Value.isWhitespace,
    ((vs.dropWhile Value.isWhitespace).reverse.takeWhile Value.isWhitespace).reverse,
    fun v hv => List.mem_takeWhile_imp hv,
    fun v hv => List.mem_takeWhile_imp (List.mem_reverse.mp hv), ?_⟩
  rw [trimWhitespace, ← List.reverse_append, List.takeWhile_append_dropWhile, List.reverse_reverse,
    List.takeWhile_append_dropWhile]

namespace Selector

theorem writtenAs_of_parseSegment {s : Segment} {tree : ComplexSelector}
    (h : parseSegment s = .ok tree) :
    tree.WrittenAs (trimWhitespace s.values) := by
  unfold parseSegment at h
  split at h
  · cases h
  · split at h
    · next tree' d hrun =>
        cases h
        obtain ⟨us, hus, hall, hwritten⟩ := Scan.consumes_complexSelector _ _ hrun
        rw [hall, Cursor.rest_ofValues] at hwritten
        exact hwritten
    · cases h

theorem parseSegment_of_writtenAs {tree : ComplexSelector} {before us behind : List Value}
    (hbefore : AllBlank before) (htree : tree.WrittenAs us) (hbehind : AllBlank behind)
    (place : Position) :
    parseSegment ⟨before ++ (us ++ behind), place⟩ = .ok tree := by
  have hleads : Scan.LeadsCompound us := by
    cases htree with
    | intro hk _ => exact Scan.leads_of_compound hk _
  obtain ⟨d, hrun, _⟩ :=
    Scan.reads_complexSelector htree (Cursor.rest_ofValues us 0)
  have htrim : trimWhitespace (before ++ (us ++ behind)) = us :=
    trimWhitespace_of_solid hbefore hbehind hleads.blank (endsSolid_complexSelector htree)
  unfold parseSegment
  split
  · next hnil => exact absurd (htrim.symm.trans hnil) hleads.ne_nil
  · rw [htrim, hrun]

/-- What is read from the pieces of a prelude is written in it. -/
theorem writtenAs_of_splitFrom {vs current : List Value} {depth : Nat} {place : Position}
    {list : SelectorList} (h : (splitFrom vs depth current place).mapM parseSegment = .ok list) :
    list.WrittenAs (current.reverse ++ vs) := by
  induction vs generalizing depth current place list with
  | nil =>
      obtain ⟨tree, trees, rfl, htree, hnil⟩ := Outcome.mapM_cons_ok.mp h
      cases hnil
      obtain ⟨before, behind, hbefore, hbehind, heq⟩ := exists_blanks current.reverse
      rw [List.append_nil, heq]
      exact .single hbefore (writtenAs_of_parseSegment htree) hbehind
  | cons v vs ih =>
      rw [splitFrom] at h
      split at h
      · next hcut =>
          obtain ⟨tree, trees, rfl, htree, htrees⟩ := Outcome.mapM_cons_ok.mp h
          obtain ⟨before, behind, hbefore, hbehind, heq⟩ := exists_blanks current.reverse
          have hcomma := (Bool.and_eq_true_iff.mp hcut).1
          cases v with
          | token comma =>
              rw [heq, List.append_assoc, List.append_assoc]
              exact .cons hbefore (writtenAs_of_parseSegment htree) hbehind (beq_iff_eq.mp hcomma)
                (ih htrees)
          | _ => cases hcomma
      · simpa using ih h

/-- A prelude that writes a selector list is cut between its selectors. -/
theorem splitFrom_of_writtenAs {vs : List Value} {list : SelectorList} (h : list.WrittenAs vs)
    (place : Position) :
    (splitFrom vs 0 [] place).mapM parseSegment = .ok list := by
  induction h generalizing place with
  | @single s before vs behind hbefore hs hbehind =>
      have hpass := (uncut_blanks hbefore 0).append
        ((uncut_complexSelector hs).append (uncut_blanks hbehind 0))
      have hsplit := hpass [] [] place
      rw [List.append_nil, List.append_nil] at hsplit
      rw [hsplit, splitFrom, List.reverse_reverse]
      exact Outcome.mapM_cons_ok.mpr ⟨s, [], rfl, parseSegment_of_writtenAs hbefore hs hbehind place, rfl⟩
  | @cons s list before vs behind rest comma hbefore hs hbehind hcomma _ ih =>
      have hpass := (uncut_blanks hbefore 0).append
        ((uncut_complexSelector hs).append (uncut_blanks hbehind 0))
      have hsplit := hpass (.token comma :: rest) [] place
      have hcut : ((Value.token comma).hasType .comma && (0 : Nat) == 0) = true := by
        simp [Value.hasType, hcomma]
      simp only [List.append_assoc, List.append_nil] at hsplit
      rw [hsplit, splitFrom, if_pos hcut]
      refine Outcome.mapM_cons_ok.mpr ⟨s, list, rfl, ?_, ih _⟩
      rw [List.reverse_reverse]
      exact parseSegment_of_writtenAs hbefore hs hbehind comma.position

/-- A prelude is read to a selector list exactly when it writes this list. -/
theorem parse_eq_ok_iff {vs : List Value} {list : SelectorList} :
    parse vs = .ok list ↔ list.WrittenAs vs :=
  ⟨fun h => writtenAs_of_splitFrom h, fun h => splitFrom_of_writtenAs h _⟩

/-- A prelude spells at least one selector. -/
theorem ne_nil_of_parse {vs : List Value} {list : SelectorList} (h : parse vs = .ok list) :
    list ≠ [] := by
  cases parse_eq_ok_iff.mp h <;> exact List.cons_ne_nil _ _

end Selector

/-- An outcome whose result passes a check is a result. -/
theorem exists_ok_of_any {ε α : Type} {x : Except ε α} {p : α → Bool}
    (h : x.toOption.any p = true) :
    ∃ a, x = .ok a ∧ p a = true := by
  cases x with
  | error e => cases h
  | ok a => exact ⟨a, rfl, h⟩

end Cascade
