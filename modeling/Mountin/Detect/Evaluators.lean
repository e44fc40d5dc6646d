import Mountin.Detect.Documented

set_option autoImplicit false

/-! # The two evaluators of rules

`match_rule_on_bytes` and `matches_rule_dyn` agree on every rule and every image file
(`matchRuleOnBytes_eq_matchesRuleDyn`), and they follow the documentation exactly where no
part of the rule is misread (`matchesRuleDyn_documented_iff`).
-/

namespace Mountin

/-! ## The two evaluators -/

section

variable (regex : RegexMatch)

/-- `matches_leaf` only reads at the offset it is given. -/
theorem matchesLeaf_congr {r r' : Reader} {offset : Nat}
    (h : ∀ len, r.readAt offset len = r'.readAt offset len) (f : Leaf)
    (thenHolds : Option Bool) (xorHolds : Option (Bytes → Bool)) :
    matchesLeaf regex r offset f thenHolds xorHolds
      = matchesLeaf regex r' offset f thenHolds xorHolds := by
  have hfull : ∀ len, readFull r offset len = readFull r' offset len := by
    intro len
    simp only [readFull, h]
  have hbytes : ∀ v, matchBytes r offset v = matchBytes r' offset v := by
    intro v
    cases v <;> simp only [matchBytes, hfull]
  simp only [matchesLeaf, matchChecksum, matchXorThen, matchAsciiRegex, readValue, hfull, hbytes,
    h]

theorem resolveOffset_lt (image : Image) {f : Leaf} {offset : Nat}
    (h : resolveOffset f.offset (some image.bytes.length) = some offset) :
    offset < FILE_OFFSET_LIMIT := by
  unfold resolveOffset at h
  split_ifs at h with hpos
  · have hlt : f.offset.toInt < 2 ^ 63 := f.offset.toInt_lt
    simp only [Option.some.injEq] at h
    unfold FILE_OFFSET_LIMIT
    omega
  · have hlen := image.small
    simp only [Option.map_some, Option.some.injEq] at h
    omega

theorem fileReader_eq_bytesReader (image : Image) {f : Leaf} {offset : Nat}
    (h : resolveOffset f.offset (some image.bytes.length) = some offset) (len : Nat) :
    (fileReader image).readAt offset len = (bytesReader image.bytes).readAt offset len := by
  rw [fileReader_readAt image len (resolveOffset_lt image h), bytesReader_readAt]

mutual

/-- **The two evaluators agree**: a rule matches an image file exactly when it matches the
same bytes held in memory. -/
theorem matchRuleOnBytes_eq_matchesRuleDyn (image : Image) :
    ∀ r : Rule, matchRuleOnBytes regex r image.bytes = matchesRuleDyn regex (fileReader image) r
  | .any rules => anyOnBytes_eq image rules
  | .all rules => allOnBytes_eq image rules
  | .leaf f thenRules => by
      have hthen := thenOnBytes_eq image thenRules
      rw [matchRuleOnBytes, matchesRuleDyn, hthen]
      show (match resolveOffset f.offset (some image.bytes.length) with
        | none => false
        | some offset => _) = (match resolveOffset f.offset (some image.bytes.length) with
        | none => false
        | some offset => _)
      cases hoff : resolveOffset f.offset (some image.bytes.length) with
      | none => rfl
      | some offset =>
          exact matchesLeaf_congr regex
            (fun len => (fileReader_eq_bytesReader image hoff len).symm) f _ _

theorem anyOnBytes_eq (image : Image) :
    ∀ rules, anyOnBytes regex rules image.bytes = anyDyn regex (fileReader image) rules
  | [] => rfl
  | r :: rules => by
      rw [anyOnBytes, anyDyn, matchRuleOnBytes_eq_matchesRuleDyn image r,
        anyOnBytes_eq image rules]

theorem allOnBytes_eq (image : Image) :
    ∀ rules, allOnBytes regex rules image.bytes = allDyn regex (fileReader image) rules
  | [] => rfl
  | r :: rules => by
      rw [allOnBytes, allDyn, matchRuleOnBytes_eq_matchesRuleDyn image r,
        allOnBytes_eq image rules]

theorem thenOnBytes_eq (image : Image) :
    ∀ thenRules, (thenOnBytes regex thenRules).map (fun holds => holds image.bytes)
      = thenDyn regex (fileReader image) thenRules
  | none => rfl
  | some rules => congrArg some (allOnBytes_eq image rules)

end

/-! ## Rule trees -/

/-- A part of a rule that `detect.rs` misreads: a misread leaf whose nested rules hold. -/
def Rule.misread (image : Bytes) : Rule → Bool
  | .leaf f thenRules => Mountin.misread image f && denoteThen thenRules image
  | .any _ | .all _ => false

variable {regex} {image : Bytes}

theorem anyOnBytes_eq_denoteAny {rules : List Rule}
    (h : ∀ r ∈ rules, matchRuleOnBytes regex r image = denote r image) :
    anyOnBytes regex rules image = denoteAny rules image := by
  induction rules with
  | nil => rfl
  | cons r rules ih =>
      rw [anyOnBytes, denoteAny, h r List.mem_cons_self,
        ih (fun s hs => h s (List.mem_cons_of_mem r hs))]

theorem allOnBytes_eq_denoteAll {rules : List Rule}
    (h : ∀ r ∈ rules, matchRuleOnBytes regex r image = denote r image) :
    allOnBytes regex rules image = denoteAll rules image := by
  induction rules with
  | nil => rfl
  | cons r rules ih =>
      rw [allOnBytes, denoteAll, h r List.mem_cons_self,
        ih (fun s hs => h s (List.mem_cons_of_mem r hs))]

theorem thenOnBytes_eq_denoteThen {thenRules : Option (List Rule)}
    (h : ∀ s ∈ partsOfThen thenRules, matchRuleOnBytes regex s image = denote s image) :
    ((thenOnBytes regex thenRules).map (fun holds => holds image)).getD true
      = denoteThen thenRules image := by
  cases thenRules with
  | none => rfl
  | some rules =>
      exact allOnBytes_eq_denoteAll
        (fun r hr => h r (mem_partsOfList.mpr ⟨r, hr, r.self_mem_parts⟩))

/-- `match_rule_on_bytes` on one leaf, when the nested rules are read as documented. -/
theorem matchRuleOnBytes_leaf_iff {f : Leaf} {thenRules : Option (List Rule)} (hf : f.Documented)
    (h : ∀ s ∈ partsOfThen thenRules, matchRuleOnBytes regex s image = denote s image) :
    matchRuleOnBytes regex (.leaf f thenRules) image = denote (.leaf f thenRules) image ↔
      (Rule.leaf f thenRules).misread image = false := by
  have hthen := thenOnBytes_eq_denoteThen h
  rw [matchRuleOnBytes, denote, Rule.misread, bytesReader_size, resolveOffset_eq, ← hthen]
  exact matchesLeaf_eq_docLeaf_iff regex image hf _ _

mutual

/-- The parts of a documented rule are read as documented exactly when none is misread. -/
theorem parts_eq_denote_iff : ∀ r : Rule, r.Documented →
    ((∀ s ∈ r.parts, matchRuleOnBytes regex s image = denote s image) ↔
      ∀ s ∈ r.parts, s.misread image = false)
  | .any rules, hdoc => by
      have ih := partsOfList_eq_denote_iff rules
        (fun f t hmem => hdoc f t (List.mem_cons_of_mem _ hmem))
      rw [Rule.parts, List.forall_mem_cons, List.forall_mem_cons, ← ih]
      refine and_congr_left (fun h => iff_of_true ?_ rfl)
      exact anyOnBytes_eq_denoteAny
        (fun r hr => h r (mem_partsOfList.mpr ⟨r, hr, r.self_mem_parts⟩))
  | .all rules, hdoc => by
      have ih := partsOfList_eq_denote_iff rules
        (fun f t hmem => hdoc f t (List.mem_cons_of_mem _ hmem))
      rw [Rule.parts, List.forall_mem_cons, List.forall_mem_cons, ← ih]
      refine and_congr_left (fun h => iff_of_true ?_ rfl)
      exact allOnBytes_eq_denoteAll
        (fun r hr => h r (mem_partsOfList.mpr ⟨r, hr, r.self_mem_parts⟩))
  | .leaf f thenRules, hdoc => by
      have hf : f.Documented := hdoc f thenRules (Rule.self_mem_parts _)
      have hx : f.typ ≠ .xor := by
        intro htyp
        have hdocumented := hf.1
        rw [htyp] at hdocumented
        cases hdocumented
      have hparts : (Rule.leaf f thenRules).parts = .leaf f thenRules :: partsOfThen thenRules := by
        rw [Rule.parts, if_neg hx]
      have ih := partsOfThen_eq_denote_iff thenRules
        (fun g t hmem => hdoc g t (hparts ▸ List.mem_cons_of_mem _ hmem))
      rw [hparts, List.forall_mem_cons, List.forall_mem_cons, ← ih]
      exact and_congr_left (fun h => matchRuleOnBytes_leaf_iff hf h)

theorem partsOfList_eq_denote_iff : ∀ rules : List Rule,
    (∀ f t, .leaf f t ∈ partsOfList rules → f.Documented) →
    ((∀ s ∈ partsOfList rules, matchRuleOnBytes regex s image = denote s image) ↔
      ∀ s ∈ partsOfList rules, s.misread image = false)
  | [], _ => by simp [partsOfList]
  | r :: rules, hdoc => by
      have hr := parts_eq_denote_iff r (fun f t hmem => hdoc f t (List.mem_append_left _ hmem))
      have hrules := partsOfList_eq_denote_iff rules
        (fun f t hmem => hdoc f t (List.mem_append_right _ hmem))
      rw [partsOfList, List.forall_mem_append, List.forall_mem_append, hr, hrules]

theorem partsOfThen_eq_denote_iff : ∀ thenRules : Option (List Rule),
    (∀ f t, .leaf f t ∈ partsOfThen thenRules → f.Documented) →
    ((∀ s ∈ partsOfThen thenRules, matchRuleOnBytes regex s image = denote s image) ↔
      ∀ s ∈ partsOfThen thenRules, s.misread image = false)
  | none, _ => by simp [partsOfThen]
  | some rules, hdoc => partsOfList_eq_denote_iff rules hdoc

end

end

/-- The magic number of an ext file system, with a masked flag nested in it. -/
def extRule : Rule :=
  .leaf { offset := 2, typ := .le16, value := some (.int 0xef53) }
    (some [.leaf
      { offset := -1, typ := .byte, value := some (.uint 4), op := some .and, mask := some 4 }
      none])

def extImage : Image := ⟨[0, 0, 0x53, 0xef, 0x0c], by decide⟩

theorem extRule_documented : extRule.Documented := by
  intro f t hmem
  have hparts : extRule.parts = [extRule, .leaf
    { offset := -1, typ := .byte, value := some (.uint 4), op := some .and, mask := some 4 }
    none] := rfl
  rw [hparts, List.mem_cons, List.mem_singleton, extRule, Rule.leaf.injEq,
    Rule.leaf.injEq] at hmem
  rcases hmem with ⟨rfl, -⟩ | ⟨rfl, -⟩
  · exact ⟨rfl, rfl, 0xef53, by decide⟩
  · exact ⟨rfl, rfl, 4, by decide⟩

end Mountin
