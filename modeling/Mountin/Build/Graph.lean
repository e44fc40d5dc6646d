import Mountin.Basic.DepthFirst
import Mountin.Basic.Kahn
import Mountin.Build.OutputIndex

set_option autoImplicit false

/-! # The dependency graph

`build_graph` visits the requirements of the targets depth first, collecting the provider
variants it needs and the edges between them, and then sorts the variants. The visits go from
output to output, the sort works on variants.
-/

namespace Mountin

/-- What the visits collect: `nodes`, `edges`, `visited` and `needed`. -/
structure Walk where
  nodes : Dict String Record
  edges : List (String × String)
  visited : List String
  needed : Dict String (List String)

/-- `index.get(output)`: the variant that provides a buildable output. -/
def providerId (outputs : OutputIndex) (output : String) : Option String :=
  (outputs.get? output).bind fun record =>
    if record.buildable then some record.inst.id else none

/-- `index.get(req, req)`. -/
def dependencyId (outputs : OutputIndex) (output : String) : String :=
  (providerId outputs output).getD output

/-- `elements.add(element)`. -/
def addElement (elements : List String) (element : String) : List String :=
  if elements.contains element then elements else elements ++ [element]

/-- `needed[instance_id].add(output)`. -/
def Walk.need (walk : Walk) (instance_id output : String) : Walk :=
  { walk with needed :=
      walk.needed.set instance_id (addElement (walk.needed.getD instance_id []) output) }

/-- The bookkeeping of an output that is visited for the first time. -/
def Walk.enter (walk : Walk) (instance_id output : String) (record : Record) : Walk :=
  { walk with
    visited := output :: walk.visited
    nodes := if (walk.nodes.get? instance_id).isSome then walk.nodes
      else walk.nodes.set instance_id record }

/-- `edges.append`. -/
def Walk.link (walk : Walk) (edge : String × String) : Walk :=
  { walk with edges := walk.edges ++ [edge] }

/-- The error of a visit that comes back to a variant of its chain. -/
def cycleError (cycle : List String) : Raised :=
  let text := String.intercalate " -> " cycle
  .valueError s!"Dependency cycle: {text}"

/-- `visit`, with a bound on the depth of the recursion. -/
def visit (outputs : OutputIndex) (build_dir : BuildDir) :
    Nat → List String → Walk → String → Except Raised Walk
  | 0, _, _, _ => .error .recursionError
  | depth + 1, chain, walk, output =>
    match outputs.get? output with
    | none =>
        if IMPLICIT_OUTPUTS.contains output || build_dir output then .ok walk
        else
          let requiredBy := chain.getLast?.getD "root"
          .error (.keyError s!"No provider for: {output} (required by {requiredBy})")
    | some record =>
        if record.buildable then
          let instance_id := record.inst.id
          let walk := walk.need instance_id output
          if chain.contains instance_id then
            .error (cycleError (chain.dropWhile (fun p => p != instance_id) ++ [instance_id]))
          else if walk.visited.contains output then .ok walk
          else do
            let requires ← requirements record.inst output
            requires.foldlM (fun walk req =>
                visit outputs build_dir depth (chain ++ [instance_id])
                  (walk.link (instance_id, dependencyId outputs req)) req)
              (walk.enter instance_id output record)
        else
          .error (.keyError s!"Not buildable: {output}: {pyText record.reason}")

/-- The order in which a set lists its elements, which the language leaves open. -/
structure SetOrder where
  list : List String → List String
  perm : ∀ elements, (list elements).Perm elements

theorem perm_id (elements : List String) : (id elements).Perm elements := .refl _

/-- The dependents of each node, and how many nodes each depends on. -/
structure Links where
  adj : String → List String
  in_degree : String → Nat

/-- One edge `(dependent, dependency)` of the sort. -/
def Links.add (nodes : List String) (links : Links) (edge : String × String) : Links :=
  let (src, dst) := edge
  if nodes.contains dst && dst != src && !(links.adj dst).contains src then
    { adj := fun p => if p = dst then links.adj dst ++ [src] else links.adj p
      in_degree := fun p => if p = src then links.in_degree src + 1 else links.in_degree p }
  else links

def linksOf (nodes : List String) (edges : List (String × String)) : Links :=
  edges.foldl (Links.add nodes) ⟨fun _ => [], fun _ => 0⟩

/-- The topological sort at the end of `build_graph`. -/
def topologicalOrder (sets : SetOrder) (nodes : List String) (edges : List (String × String)) :
    List String :=
  let links := linksOf nodes edges
  Kahn.sort (fun p => sets.list (links.adj p)) links.in_degree nodes

/-- What `build_graph` returns. -/
structure BuildGraph where
  nodes : Dict String Record
  edges : List (String × String)
  targets : List String
  order : List String
  needed : Dict String (List String)

/-- `build_graph`. -/
def buildGraph (sets : SetOrder) (targets : List String) (providers : List (List Instance))
    (context : Dict String String) (build_dir : BuildDir) : Except Raised BuildGraph := do
  let outputs ← buildOutputIndex providers context (some build_dir)
  match targets.find? fun target => (providerId outputs target).isNone with
  | some target =>
      match outputs.get? target with
      | some record => .error (.keyError s!"Not buildable: {target}: {pyText record.reason}")
      | none => .error (.keyError s!"No provider for target: {target}")
  | none =>
      let walk ← targets.foldlM (visit outputs build_dir (outputs.length + 1) []) ⟨[], [], [], []⟩
      return {
        nodes := walk.nodes
        edges := walk.edges
        targets := targets.map (dependencyId outputs)
        order := topologicalOrder sets walk.nodes.keys walk.edges
        needed := walk.needed }

/-! ## The graph that the visits go through -/

/-- The requirements of an output. -/
def requiresOf (outputs : OutputIndex) (output : String) : List String :=
  match outputs.get? output with
  | some record => (requirements record.inst output).toOption.getD []
  | none => []

/-- A name that the visits enter: a buildable output. -/
def internal (outputs : OutputIndex) (output : String) : Bool := (providerId outputs output).isSome

/-- The requirements of an output that the visits enter. -/
def succOf (outputs : OutputIndex) (output : String) : List String :=
  (requiresOf outputs output).filter (internal outputs)

/-- An index after elimination: the requirements of buildable outputs are read and met. -/
def Settled (outputs : OutputIndex) (build_dir : BuildDir) : Prop :=
  ∀ output record, outputs.get? output = some record → record.buildable = true →
    ∃ requires, requirements record.inst output = .ok requires ∧
      ∀ requirement ∈ requires, Meets outputs (some build_dir) (buildableSet outputs) requirement

theorem providerId_of_get? {outputs : OutputIndex} {output : String} {record : Record}
    (h : outputs.get? output = some record) (hbuildable : record.buildable = true) :
    providerId outputs output = some record.inst.id := by
  simp [providerId, h, hbuildable]

theorem internal_iff {outputs : OutputIndex} {output : String} :
    internal outputs output = true ↔ output ∈ buildableSet outputs := by
  unfold internal providerId buildableSet
  cases h : outputs.get? output with
  | none => simp [h]
  | some record => cases hbuildable : record.buildable <;> simp [h, hbuildable]

/-- The index that `build_graph` works on is settled. -/
theorem buildOutputIndex_settled {providers : List (List Instance)}
    {context : Dict String String} {build_dir : BuildDir} {outputs : OutputIndex}
    (h : buildOutputIndex providers context (some build_dir) = .ok outputs) :
    Settled outputs build_dir := by
  obtain ⟨registered, _, helim⟩ := Except.bind_eq_ok.mp h
  obtain ⟨hrev, hgfp⟩ := eliminate_spec helim
  have hreads := eliminate_returns_iff.mp ⟨outputs, helim⟩
  intro output record hget hbuildable
  have hmem : output ∈ supportedBy registered (some build_dir) (buildableSet outputs) := by
    rw [hgfp, OrderHom.map_gfp, ← hgfp]
    exact ⟨record, hget, hbuildable⟩
  obtain ⟨record₀, hget₀, hinst, hinit⟩ := hrev.record output record hget
  obtain ⟨record₁, hget₁, _, hmeets⟩ := hmem
  obtain rfl : record₀ = record₁ := by simpa [hget₀] using hget₁
  obtain ⟨requires, hreq⟩ := hreads output record₀ hget₀ (hinit hbuildable)
  refine ⟨requires, hinst ▸ hreq, fun requirement hr => ?_⟩
  exact hrev.meets_iff.mpr (hmeets requirement ⟨requires, hreq, hr⟩)

/-! ## What a visit does -/

/-- The vertices that a walk has entered. -/
def Walk.seenSet (walk : Walk) : Set String := {output | output ∈ walk.visited}

/-- What every visit keeps. -/
structure Walk.Invariant (outputs : OutputIndex) (walk : Walk) : Prop where
  nodup : walk.nodes.keys.Nodup
  nodes : ∀ p, p ∈ walk.nodes.keys ↔ ∃ output ∈ walk.visited, dependencyId outputs output = p
  needed : ∀ p output, output ∈ walk.needed.getD p [] ↔
    output ∈ walk.visited ∧ dependencyId outputs output = p
  visited : ∀ output ∈ walk.visited, output ∈ buildableSet outputs
  edges : ∀ e ∈ walk.edges, ∃ output ∈ walk.visited, ∃ req ∈ requiresOf outputs output,
    e = (dependencyId outputs output, dependencyId outputs req)
  records : ∀ p record, walk.nodes.get? p = some record → ∃ output ∈ walk.visited,
    outputs.get? output = some record ∧ dependencyId outputs output = p

/-- What a visit adds: the edges of the outputs that it entered, none of which requires an
output of its own variant. -/
structure Walk.Grown (outputs : OutputIndex) (walk walk' : Walk) : Prop where
  visited : ∀ output ∈ walk.visited, output ∈ walk'.visited
  edges : ∀ e ∈ walk.edges, e ∈ walk'.edges
  linked : ∀ output ∈ walk'.visited, output ∉ walk.visited → ∀ req ∈ requiresOf outputs output,
    (dependencyId outputs output, dependencyId outputs req) ∈ walk'.edges
  apart : ∀ output ∈ walk'.visited, output ∉ walk.visited → ∀ req ∈ succOf outputs output,
    dependencyId outputs req ≠ dependencyId outputs output

theorem Walk.Grown.refl (outputs : OutputIndex) (walk : Walk) : Walk.Grown outputs walk walk :=
  ⟨fun _ h => h, fun _ h => h, fun _ h hnot => absurd h hnot, fun _ h hnot => absurd h hnot⟩

theorem Walk.Grown.trans {outputs : OutputIndex} {walk₁ walk₂ walk₃ : Walk}
    (h₁ : Walk.Grown outputs walk₁ walk₂) (h₂ : Walk.Grown outputs walk₂ walk₃) :
    Walk.Grown outputs walk₁ walk₃ := by
  refine ⟨fun o h => h₂.visited o (h₁.visited o h), fun e h => h₂.edges e (h₁.edges e h), ?_, ?_⟩
  · intro output hmem hnot req hreq
    by_cases hmid : output ∈ walk₂.visited
    · exact h₂.edges _ (h₁.linked output hmid hnot req hreq)
    · exact h₂.linked output hmem hmid req hreq
  · intro output hmem hnot req hreq
    by_cases hmid : output ∈ walk₂.visited
    · exact h₁.apart output hmid hnot req hreq
    · exact h₂.apart output hmem hmid req hreq

/-- The outcome of visiting a list: it sees what a depth-first visit sees, or it raises a cycle
error because the visit comes back to a variant of the chain. -/
def Walk.Outcome (outputs : OutputIndex) (chain l : List String) (walk : Walk) :
    Except Raised Walk → Prop
  | .ok walk' => walk'.Invariant outputs ∧ walk.Grown outputs walk' ∧
      walk'.seenSet = DepthFirst.seen (succOf outputs) walk.seenSet l ∧
      (∀ req ∈ l, dependencyId outputs req ∉ chain) ∧
      ¬ DepthFirst.Closes (succOf outputs) (dependencyId outputs) walk.seenSet chain l
  | .error e => (∃ cycle, e = cycleError cycle) ∧
      DepthFirst.Closes (succOf outputs) (dependencyId outputs) walk.seenSet chain l

theorem mem_addElement {elements : List String} {element x : String} :
    x ∈ addElement elements element ↔ x ∈ elements ∨ x = element := by
  unfold addElement
  split
  · rename_i h
    have hmem : element ∈ elements := by simpa using h
    exact ⟨.inl, fun h => h.elim id fun heq => heq ▸ hmem⟩
  · simp

theorem mem_need {walk : Walk} {instance_id output p x : String} :
    x ∈ (walk.need instance_id output).needed.getD p [] ↔
      x ∈ walk.needed.getD p [] ∨ (p = instance_id ∧ x = output) := by
  simp only [Walk.need, Dict.getD, Dict.get?_set]
  by_cases h : instance_id = p
  · subst h
    simp [mem_addElement]
  · simp [h, Ne.symm h]

theorem mem_keys_enter {walk : Walk} {instance_id output p : String} {record : Record} :
    p ∈ (walk.enter instance_id output record).nodes.keys ↔
      p = instance_id ∨ p ∈ walk.nodes.keys := by
  unfold Walk.enter
  split
  · rename_i h
    rw [Dict.isSome_get?_iff] at h
    exact ⟨.inr, fun hp => hp.elim (fun heq => heq ▸ h) id⟩
  · exact Dict.mem_keys_set

/-- Needing an output again changes nothing that the invariant sees. -/
theorem Walk.Invariant.need {outputs : OutputIndex} {walk : Walk} (h : walk.Invariant outputs)
    {output : String} (hmem : output ∈ walk.visited) :
    (walk.need (dependencyId outputs output) output).Invariant outputs where
  nodup := h.nodup
  nodes := h.nodes
  needed p x := by
    rw [mem_need, h.needed]
    constructor
    · rintro (hx | ⟨rfl, rfl⟩)
      · exact hx
      · exact ⟨hmem, rfl⟩
    · exact .inl
  visited := h.visited
  edges := h.edges
  records := h.records

/-- Entering an output keeps the invariant. -/
theorem Walk.Invariant.enter {outputs : OutputIndex} {walk : Walk} (h : walk.Invariant outputs)
    {output : String} {record : Record} (hget : outputs.get? output = some record)
    (hbuildable : output ∈ buildableSet outputs) :
    ((walk.need (dependencyId outputs output) output).enter (dependencyId outputs output) output
      record).Invariant outputs where
  nodup := by
    unfold Walk.enter
    split
    · exact h.nodup
    · exact Dict.nodup_keys_set h.nodup _ _
  nodes p := by
    rw [mem_keys_enter]
    show p = _ ∨ p ∈ walk.nodes.keys ↔ ∃ o ∈ output :: walk.visited, dependencyId outputs o = p
    rw [h.nodes, List.exists_mem_cons_iff, eq_comm]
  needed p x := by
    show x ∈ (walk.need _ output).needed.getD p [] ↔ x ∈ output :: walk.visited ∧ _
    rw [mem_need, h.needed, List.mem_cons]
    constructor
    · rintro (hx | ⟨rfl, rfl⟩)
      · exact ⟨.inr hx.1, hx.2⟩
      · exact ⟨.inl rfl, rfl⟩
    · rintro ⟨rfl | hx, rfl⟩
      · exact .inr ⟨rfl, rfl⟩
      · exact .inl ⟨hx, rfl⟩
  visited x hx := by
    rcases List.mem_cons.mp hx with rfl | hx
    · exact hbuildable
    · exact h.visited x hx
  edges e he := by
    obtain ⟨o, ho, hedge⟩ := h.edges e he
    exact ⟨o, List.mem_cons_of_mem _ ho, hedge⟩
  records p record' hrecord := by
    have hold : ∀ record', walk.nodes.get? p = some record' → ∃ o ∈ output :: walk.visited,
        outputs.get? o = some record' ∧ dependencyId outputs o = p := by
      intro record' hrecord
      obtain ⟨o, ho, hmem⟩ := h.records p record' hrecord
      exact ⟨o, List.mem_cons_of_mem _ ho, hmem⟩
    unfold Walk.enter at hrecord
    split at hrecord
    · exact hold record' hrecord
    · rw [Dict.get?_set] at hrecord
      split at hrecord
      · rename_i heq
        obtain rfl := Option.some.inj hrecord
        exact ⟨output, List.mem_cons_self, hget, heq⟩
      · exact hold record' hrecord

/-- Adding an edge of an output that was entered keeps the invariant. -/
theorem Walk.Invariant.link {outputs : OutputIndex} {walk : Walk} (h : walk.Invariant outputs)
    {output req : String} (hmem : output ∈ walk.visited) (hreq : req ∈ requiresOf outputs output) :
    (walk.link (dependencyId outputs output, dependencyId outputs req)).Invariant outputs where
  nodup := h.nodup
  nodes := h.nodes
  needed := h.needed
  visited := h.visited
  edges e he := by
    rcases List.mem_append.mp he with he | he
    · exact h.edges e he
    · exact ⟨output, hmem, req, hreq, List.mem_singleton.mp he⟩
  records := h.records

/-- A list whose first vertex raises. -/
theorem Walk.Outcome.cons_error {outputs : OutputIndex} {chain rest : List String} {req : String}
    {walk : Walk} {e : Raised} (h : walk.Outcome outputs chain [req] (.error e)) :
    walk.Outcome outputs chain (req :: rest) (.error e) :=
  ⟨h.1, DepthFirst.closes_cons_iff.mpr (.inl h.2)⟩

/-- A list whose first vertex is visited, then the others. -/
theorem Walk.Outcome.cons {outputs : OutputIndex} {chain rest : List String} {req : String}
    {walk walk₁ : Walk} {r : Except Raised Walk}
    (hfirst : walk.Outcome outputs chain [req] (.ok walk₁))
    (hrest : walk₁.Outcome outputs chain rest r) : walk.Outcome outputs chain (req :: rest) r := by
  obtain ⟨hwalk₁, hgrown, hseen, hapart, hopen⟩ := hfirst
  cases r with
  | error e =>
      refine ⟨hrest.1, DepthFirst.closes_cons_iff.mpr (.inr ?_)⟩
      rw [← hseen]
      exact hrest.2
  | ok walk' =>
      obtain ⟨hwalk', hgrown', hseenrest, hapart', hopen'⟩ := hrest
      refine ⟨hwalk', hgrown.trans hgrown', ?_, ?_, ?_⟩
      · rw [hseenrest, hseen, ← DepthFirst.seen_cons]
      · rw [List.forall_mem_cons]
        exact ⟨hapart req (List.mem_singleton_self req), hapart'⟩
      · rw [DepthFirst.closes_cons_iff, not_or, ← hseen]
        exact ⟨hopen, hopen'⟩

/-- The empty list. -/
theorem Walk.Outcome.nil {outputs : OutputIndex} {chain : List String} {walk : Walk}
    (h : walk.Invariant outputs) : walk.Outcome outputs chain [] (.ok walk) :=
  ⟨h, .refl outputs walk, (DepthFirst.seen_nil _).symm, by simp, DepthFirst.not_closes_nil⟩

theorem Walk.Grown.link {outputs : OutputIndex} {walk walk' : Walk} {e : String × String}
    (h : Walk.Grown outputs (walk.link e) walk') : Walk.Grown outputs walk walk' :=
  ⟨h.visited, fun e' he => h.edges e' (List.mem_append_left _ he), h.linked, h.apart⟩

theorem Walk.Outcome.link {outputs : OutputIndex} {chain l : List String} {walk : Walk}
    {e : String × String} {r : Except Raised Walk}
    (h : (walk.link e).Outcome outputs chain l r) : walk.Outcome outputs chain l r := by
  cases r with
  | error _ => exact h
  | ok walk' =>
      obtain ⟨hwalk', hgrown, hrest⟩ := h
      exact ⟨hwalk', hgrown.link, hrest⟩

/-- An external requirement that is met is passed over. -/
theorem visit_external {outputs : OutputIndex} {build_dir : BuildDir} {output : String}
    (hmeets : Meets outputs (some build_dir) (buildableSet outputs) output)
    (hnot : output ∉ buildableSet outputs) (depth : Nat) (chain : List String) (walk : Walk) :
    visit outputs build_dir (depth + 1) chain walk output = .ok walk := by
  obtain ⟨hget, hexternal⟩ := hmeets.resolve_left hnot
  rw [external, Option.all_some] at hexternal
  rw [visit]
  simp only [hget, hexternal, if_true]

section Visits

variable {outputs : OutputIndex} {build_dir : BuildDir}

/-- The loop over the requirements of an output. -/
theorem visitRequirements_outcome {depth : Nat} {chain : List String} {output : String}
    (hone : ∀ walk : Walk, walk.Invariant outputs → ∀ req ∈ buildableSet outputs,
      walk.Outcome outputs chain [req] (visit outputs build_dir (depth + 1) chain walk req))
    (requires : List String) (hsub : ∀ req ∈ requires, req ∈ requiresOf outputs output)
    (hmeets : ∀ req ∈ requires, Meets outputs (some build_dir) (buildableSet outputs) req)
    {walk : Walk} (hwalk : walk.Invariant outputs) (hmem : output ∈ walk.visited)
    {r : Except Raised Walk}
    (hr : requires.foldlM (fun walk req => visit outputs build_dir (depth + 1) chain
      (walk.link (dependencyId outputs output, dependencyId outputs req)) req) walk = r) :
    walk.Outcome outputs chain (requires.filter (internal outputs)) r ∧
      ∀ walk', r = .ok walk' → ∀ req ∈ requires,
        (dependencyId outputs output, dependencyId outputs req) ∈ walk'.edges := by
  induction requires generalizing walk with
  | nil =>
      subst hr
      exact ⟨.nil hwalk, by simp⟩
  | cons req rest ih =>
      rw [List.forall_mem_cons] at hsub hmeets
      have hlink := hwalk.link hmem hsub.1
      have hedge : (dependencyId outputs output, dependencyId outputs req) ∈
          (walk.link (dependencyId outputs output, dependencyId outputs req)).edges :=
        List.mem_append_right _ (List.mem_singleton_self _)
      rw [List.foldlM_cons] at hr
      by_cases hinternal : req ∈ buildableSet outputs
      · have hfirst := hone _ hlink req hinternal
        rw [List.filter_cons_of_pos (internal_iff.mpr hinternal)]
        cases hvisit : visit outputs build_dir (depth + 1) chain
            (walk.link (dependencyId outputs output, dependencyId outputs req)) req with
        | error e =>
            rw [hvisit] at hfirst hr
            obtain rfl : .error e = r := hr
            exact ⟨hfirst.link.cons_error, by simp⟩
        | ok walk₁ =>
            rw [hvisit] at hfirst hr
            have hgrown := hfirst.2.1
            obtain ⟨hrest, hedges⟩ := ih hsub.2 hmeets.2 hfirst.1 (hgrown.visited _ hmem) hr
            refine ⟨hfirst.link.cons hrest, ?_⟩
            rintro walk' rfl
            rw [List.forall_mem_cons]
            exact ⟨hrest.2.1.edges _ (hgrown.edges _ hedge), hedges walk' rfl⟩
      · rw [visit_external hmeets.1 hinternal] at hr
        rw [List.filter_cons_of_neg fun h => hinternal (internal_iff.mp h)]
        obtain ⟨hrest, hedges⟩ := ih hsub.2 hmeets.2 hlink hmem hr
        refine ⟨hrest.link, ?_⟩
        rintro walk' rfl
        rw [List.forall_mem_cons]
        exact ⟨hrest.2.1.edges _ hedge, hedges walk' rfl⟩

/-- A chain of variants is not longer than the index. -/
theorem chain_length_le {chain : List String} (hnodup : chain.Nodup)
    (hchain : ∀ p ∈ chain, ∃ output ∈ buildableSet outputs, dependencyId outputs output = p) :
    chain.length ≤ outputs.length := by
  have hsub : ∀ p ∈ chain, p ∈ outputs.map fun e => e.2.inst.id := by
    intro p hp
    obtain ⟨output, ⟨record, hget, hbuildable⟩, rfl⟩ := hchain p hp
    rw [dependencyId, providerId_of_get? hget hbuildable]
    exact List.mem_map.mpr ⟨(output, record), Dict.mem_of_get?_eq_some hget, rfl⟩
  have := (hnodup.subperm hsub).length_le
  rwa [List.length_map] at this

/-- **What a visit does.** Visiting a buildable output sees what a depth-first visit sees, or
comes back to a variant of its chain and raises. -/
theorem visit_outcome (hsettled : Settled outputs build_dir) (depth : Nat) {chain : List String}
    (hnodup : chain.Nodup)
    (hchain : ∀ p ∈ chain, ∃ output ∈ buildableSet outputs, dependencyId outputs output = p)
    (hdepth : outputs.length < chain.length + depth) (walk : Walk)
    (hwalk : walk.Invariant outputs) (output : String) (hbuildable : output ∈ buildableSet outputs) :
    walk.Outcome outputs chain [output] (visit outputs build_dir depth chain walk output) := by
  induction depth generalizing chain walk output with
  | zero =>
      have := chain_length_le hnodup hchain
      omega
  | succ depth ih =>
      obtain ⟨record, hget, hrecord⟩ := hbuildable
      have hbuildable : output ∈ buildableSet outputs := ⟨record, hget, hrecord⟩
      obtain ⟨requires, hreq, hmeets⟩ := hsettled output record hget hrecord
      have hid : dependencyId outputs output = record.inst.id := by
        rw [dependencyId, providerId_of_get? hget hrecord]
        rfl
      have hrequires : requiresOf outputs output = requires := by
        simp [requiresOf, hget, hreq, Except.toOption]
      rw [visit]
      simp only [hget, hrecord, if_true, ← hid]
      split
      · -- the variant is on the chain: the cycle error
        rename_i hmem
        have hmem : dependencyId outputs output ∈ chain := by simpa using hmem
        exact ⟨⟨_, rfl⟩, .here hmem⟩
      rename_i hnew
      have hnew : dependencyId outputs output ∉ chain := by simpa using hnew
      split
      · -- visited before: nothing to see
        rename_i hvisited
        have hvisited : output ∈ walk.visited := by simpa [Walk.need] using hvisited
        refine ⟨hwalk.need hvisited, ?_, ?_, ?_, ?_⟩
        · exact ⟨fun _ h => h, fun _ h => h, fun _ h hnot => absurd h hnot,
            fun _ h hnot => absurd h hnot⟩
        · exact (DepthFirst.seen_of_mem (V := walk.seenSet) hvisited).symm
        · simpa using hnew
        · rw [DepthFirst.closes_singleton_iff]
          rintro (h | ⟨h, _⟩)
          · exact hnew h
          · exact h hvisited
      -- visited for the first time: its requirements are visited in turn
      rename_i hfresh
      have hfresh : output ∉ walk.visited := by simpa [Walk.need] using hfresh
      simp only [hreq, Except.ok_bind]
      have hchain' : ∀ p ∈ chain ++ [dependencyId outputs output],
          ∃ o ∈ buildableSet outputs, dependencyId outputs o = p := by
        intro p hp
        rcases List.mem_append.mp hp with hp | hp
        · exact hchain p hp
        · exact ⟨output, hbuildable, (List.mem_singleton.mp hp).symm⟩
      have hnodup' : (chain ++ [dependencyId outputs output]).Nodup := by
        rw [List.nodup_append]
        refine ⟨hnodup, by simp, fun a ha b hb heq => hnew ?_⟩
        rw [List.mem_singleton] at hb
        exact hb ▸ heq ▸ ha
      have hlength := chain_length_le hnodup' hchain'
      rw [List.length_append, List.length_singleton] at hlength
      obtain ⟨depth, rfl⟩ : ∃ d, depth = d + 1 := ⟨depth - 1, by omega⟩
      have hone : ∀ walk : Walk, walk.Invariant outputs → ∀ req ∈ buildableSet outputs,
          walk.Outcome outputs (chain ++ [dependencyId outputs output]) [req]
            (visit outputs build_dir (depth + 1) (chain ++ [dependencyId outputs output]) walk req) :=
        fun walk hwalk req hmem => ih hnodup' hchain'
          (by rw [List.length_append, List.length_singleton]; omega) walk hwalk req hmem
      have hsub : ∀ req ∈ requires, req ∈ requiresOf outputs output := fun req h => hrequires ▸ h
      have hseen₁ : ((walk.need (dependencyId outputs output) output).enter
          (dependencyId outputs output) output record).seenSet = insert output walk.seenSet := by
        ext x
        exact List.mem_cons
      have hsucc : requires.filter (internal outputs) = succOf outputs output := by
        rw [succOf, hrequires]
      generalize hloop : (requires.foldlM _ _ : Except Raised Walk) = r
      obtain ⟨hall, hedges⟩ := visitRequirements_outcome hone requires hsub hmeets
        (hwalk.enter hget hbuildable) List.mem_cons_self hloop
      rw [hsucc] at hall
      cases r with
      | error e =>
          refine ⟨hall.1, DepthFirst.closes_singleton_iff.mpr (.inr ⟨hfresh, ?_⟩)⟩
          rw [← hseen₁]
          exact hall.2
      | ok walk' =>
          obtain ⟨hwalk', hgrown, hseen, hapart, hopen⟩ := hall
          refine ⟨hwalk', ⟨?_, hgrown.edges, ?_, ?_⟩, ?_, by simpa using hnew, ?_⟩
          · exact fun o ho => hgrown.visited o (List.mem_cons_of_mem _ ho)
          · intro o ho hnot req hr
            by_cases heq : o = output
            · subst heq
              exact hedges walk' rfl req (hrequires ▸ hr)
            · exact hgrown.linked o ho (fun h => hnot ((List.mem_cons.mp h).resolve_left heq)) req hr
          · intro o ho hnot req hr
            by_cases heq : o = output
            · subst heq
              intro hsame
              exact hapart req hr (List.mem_append_right _ (List.mem_singleton.mpr hsame))
            · exact hgrown.apart o ho (fun h => hnot ((List.mem_cons.mp h).resolve_left heq)) req hr
          · rw [hseen, hseen₁, DepthFirst.seen_enter (V := walk.seenSet) hfresh]
          · rw [DepthFirst.closes_singleton_iff, not_or]
            refine ⟨hnew, fun h => hopen ?_⟩
            rw [hseen₁]
            exact h.2

/-- The outputs that the targets lead to. -/
def reached (outputs : OutputIndex) (targets : List String) : Set String :=
  DepthFirst.seen (succOf outputs) ∅ targets

/-- Visiting the targets. -/
theorem visitTargets_outcome (hsettled : Settled outputs build_dir) (targets : List String)
    (htargets : ∀ target ∈ targets, target ∈ buildableSet outputs) {walk : Walk}
    (hwalk : walk.Invariant outputs) :
    walk.Outcome outputs [] targets
      (targets.foldlM (visit outputs build_dir (outputs.length + 1) []) walk) := by
  induction targets generalizing walk with
  | nil => exact .nil hwalk
  | cons target rest ih =>
      rw [List.forall_mem_cons] at htargets
      have hfirst := visit_outcome hsettled (outputs.length + 1) List.nodup_nil (by simp)
        (by simp) walk hwalk target htargets.1
      rw [List.foldlM_cons]
      cases hvisit : visit outputs build_dir (outputs.length + 1) [] walk target with
      | error e =>
          rw [hvisit] at hfirst
          exact hfirst.cons_error
      | ok walk₁ =>
          rw [hvisit] at hfirst
          exact hfirst.cons (ih htargets.2 hfirst.1)

theorem Walk.Invariant.empty (outputs : OutputIndex) :
    Walk.Invariant outputs ⟨[], [], [], []⟩ where
  nodup := List.nodup_nil
  nodes p := by simp [Dict.keys]
  needed p output := by simp [Dict.getD]
  visited output h := by simp at h
  edges e h := by simp at h
  records p record h := by simp at h

end Visits

/-! ## What `build_graph` returns -/

/-- The graph that the visits of the targets lead to. -/
structure BuildGraph.Collected (outputs : OutputIndex) (targets : List String) (sets : SetOrder)
    (graph : BuildGraph) : Prop where
  nodup : graph.nodes.keys.Nodup
  nodes : ∀ p, p ∈ graph.nodes.keys ↔
    ∃ output ∈ reached outputs targets, dependencyId outputs output = p
  needed : ∀ p output, output ∈ graph.needed.getD p [] ↔
    output ∈ reached outputs targets ∧ dependencyId outputs output = p
  edges : ∀ e, e ∈ graph.edges ↔ ∃ output ∈ reached outputs targets,
    ∃ req ∈ requiresOf outputs output, e = (dependencyId outputs output, dependencyId outputs req)
  apart : ∀ output ∈ reached outputs targets, ∀ req ∈ succOf outputs output,
    dependencyId outputs req ≠ dependencyId outputs output
  records : ∀ p record, graph.nodes.get? p = some record → ∃ output ∈ reached outputs targets,
    outputs.get? output = some record ∧ dependencyId outputs output = p
  targets : graph.targets = targets.map (dependencyId outputs)
  order : graph.order = topologicalOrder sets graph.nodes.keys graph.edges

/-- **What `build_graph` does** on targets that the index marks buildable: it raises a cycle
error when the visits come back to a variant of their chain, and otherwise returns the graph of
what the targets lead to. -/
theorem buildGraph_cases (sets : SetOrder) {targets : List String}
    {providers : List (List Instance)} {context : Dict String String} {build_dir : BuildDir}
    {outputs : OutputIndex}
    (hindex : buildOutputIndex providers context (some build_dir) = .ok outputs)
    (htargets : ∀ target ∈ targets, target ∈ buildableSet outputs) :
    (DepthFirst.Closes (succOf outputs) (dependencyId outputs) ∅ [] targets ∧
      ∃ cycle, buildGraph sets targets providers context build_dir = .error (cycleError cycle)) ∨
    (¬ DepthFirst.Closes (succOf outputs) (dependencyId outputs) ∅ [] targets ∧
      ∃ graph, buildGraph sets targets providers context build_dir = .ok graph ∧
        graph.Collected outputs targets sets) := by
  have hfind : targets.find? (fun target => (providerId outputs target).isNone) = none := by
    rw [List.find?_eq_none]
    intro target htarget
    have := internal_iff.mpr (htargets target htarget)
    simpa [internal, Option.isSome_iff_ne_none] using this
  have hempty : (Walk.mk [] [] [] []).seenSet = ∅ := by
    ext x
    simp [Walk.seenSet]
  have hvisit := visitTargets_outcome (buildOutputIndex_settled hindex) targets htargets
    (.empty outputs)
  unfold buildGraph
  rw [hindex]
  simp only [Except.ok_bind, hfind]
  cases hwalk : targets.foldlM (visit outputs build_dir (outputs.length + 1) []) ⟨[], [], [], []⟩ with
  | error e =>
      rw [hwalk] at hvisit
      obtain ⟨⟨cycle, rfl⟩, hcloses⟩ := hvisit
      rw [hempty] at hcloses
      exact .inl ⟨hcloses, cycle, rfl⟩
  | ok walk =>
      rw [hwalk] at hvisit
      obtain ⟨hinv, hgrown, hseen, _, hopen⟩ := hvisit
      rw [hempty] at hseen hopen
      have hmem : ∀ output, output ∈ walk.visited ↔ output ∈ reached outputs targets := by
        intro output
        rw [reached, ← hseen]
        rfl
      refine .inr ⟨hopen, _, rfl, hinv.nodup, ?_, ?_, ?_, ?_, ?_, rfl, rfl⟩
      · intro p
        simp only [← hmem]
        exact hinv.nodes p
      · intro p output
        rw [← hmem]
        exact hinv.needed p output
      · intro e
        simp only [← hmem]
        refine ⟨hinv.edges e, ?_⟩
        rintro ⟨output, ho, req, hreq, rfl⟩
        exact hgrown.linked output ho (by simp) req hreq
      · intro output ho
        exact hgrown.apart output ((hmem output).mpr ho) (by simp)
      · intro p record
        simp only [← hmem]
        exact hinv.records p record

/-! ## The availability of outputs -/

/-- **Availability.** The outputs marked buildable are the greatest set of supplied outputs; no
order of providers or entries changes it; and with the same build directory `build_graph` on
targets of the set can only raise a cycle error. -/
theorem buildOutputIndex_available {providers : List (List Instance)}
    {context : Dict String String} {build_dir : Option BuildDir} {index : OutputIndex}
    (h : buildOutputIndex providers context build_dir = .ok index) :
    IsGreatest {S : Set String | ∀ output ∈ S, Supplied providers context build_dir S output}
      (buildableSet index) ∧
    (∀ providers', providers'.Perm providers →
      ∃ registered, registerAll context providers' = .ok registered ∧
        ∀ entries, registered.Perm entries → ∃ index', eliminate build_dir entries = .ok index' ∧
          buildableSet index' = buildableSet index) ∧
    (∀ dir, build_dir = some dir → ∀ sets targets, (∀ target ∈ targets, target ∈ buildableSet index) →
      ∀ e, buildGraph sets targets providers context dir = .error e →
        ∃ cycle, e = cycleError cycle) := by
  refine ⟨buildOutputIndex_isGreatest h, fun providers' hp => buildOutputIndex_perm h hp, ?_⟩
  rintro dir rfl sets targets htargets e herror
  rcases buildGraph_cases sets h htargets with ⟨_, cycle, hcycle⟩ | ⟨_, graph, hgraph, _⟩
  · rw [hcycle] at herror
    exact ⟨cycle, (Except.error.inj herror).symm⟩
  · simp [hgraph] at herror

/-- A provider of an implicit output, for another platform. -/
def platformCatalogue : Instance where
  id := "catalogue"
  provider := "catalogue"
  output_platform := none
  context := []
  metadata := [("provides", .dict [("catalogue.json", .dict [])]),
    ("build_platforms", .dict [("aarch64-linux", .dict [])])]

/-- A provider whose output requires the implicit one. -/
def catalogueReader : Instance where
  id := "site"
  provider := "site"
  output_platform := none
  context := []
  metadata := [("provides", .dict [("site.html", .dict [])]),
    ("requires", .dict [("catalogue.json", .dict [])])]

theorem catalogueReader_buildable :
    IsGreatest {S : Set String | ∀ output ∈ S,
        Supplied [[catalogueReader]] [] (some fun _ => false) S output}
      (buildableSet [("site.html", ⟨catalogueReader, true, none⟩)]) :=
  (buildOutputIndex_available (by rfl :
    buildOutputIndex [[catalogueReader]] [] (some fun _ => false) =
      .ok [("site.html", ⟨catalogueReader, true, none⟩)])).1

/-- An implicit output that has a provider counts as that provider does: a set that may count on
every implicit output is larger than the one the index marks. -/
theorem implicit_output_unavailable :
    ∃ index, buildOutputIndex [[platformCatalogue], [catalogueReader]] [] (some fun _ => false) =
        .ok index ∧
      ¬ IsGreatest {S : Set String | ∀ output ∈ S, ∃ inst,
          Offers [[platformCatalogue], [catalogueReader]] output inst ∧ Permitted [] inst ∧
          ∀ requirement, Requires inst output requirement →
            requirement ∈ S ∨ requirement ∈ IMPLICIT_OUTPUTS ∨
              ((¬ ∃ other, Offers [[platformCatalogue], [catalogueReader]] requirement other) ∧
                (fun _ : String => false) requirement = true)}
        (buildableSet index) := by
  refine ⟨[("catalogue.json", ⟨platformCatalogue, false,
      some "build platform None is not in build_platforms (aarch64-linux)"⟩),
    ("site.html", ⟨catalogueReader, false, some ("requires unavailable output catalogue.json: " ++
      "build platform None is not in build_platforms (aarch64-linux)")⟩)], by rfl, fun h => ?_⟩
  have hsite : ({"site.html"} : Set String) ≤ _ := h.2 ?_
  · obtain ⟨record, hget, hbuildable⟩ := hsite rfl
    simp only [Dict.get?, String.reduceEq, if_false, if_true, Option.some.injEq] at hget
    subst hget
    simp at hbuildable
  · rintro output rfl
    refine ⟨catalogueReader, ⟨by simp, ["site.html"], rfl, by simp⟩, ⟨none, rfl⟩, ?_⟩
    rintro requirement ⟨requires, hreq, hmem⟩
    obtain rfl : ["catalogue.json"] = requires := Except.ok.inj hreq
    exact .inr (.inl (by rw [List.mem_singleton.mp hmem]; decide))

end Mountin
