import Mountin.Build.Graph

set_option autoImplicit false

/-! # The build order

The sort at the end of `build_graph` works on the edges between provider variants, the cycle
check of its visits on the chain of one visit. The order is complete exactly when the edges
between the variants have no cycle.
-/

namespace Mountin

/-! ## The links of the sort -/

theorem Links.add_spec {nodes : List String} {links : Links} {edge : String × String}
    (hnodup : ∀ p, (links.adj p).Nodup) (src dst : String) :
    ((links.add nodes edge).adj dst).Nodup ∧
      (src ∈ (links.add nodes edge).adj dst ↔
        src ∈ links.adj dst ∨ (edge = (src, dst) ∧ dst ∈ nodes ∧ dst ≠ src)) := by
  obtain ⟨a, b⟩ := edge
  simp only [Links.add]
  split
  · rename_i h
    simp only [Bool.and_eq_true, List.contains_eq_mem, decide_eq_true_eq, bne_iff_ne, ne_eq,
      Bool.not_eq_true', decide_eq_false_iff_not] at h
    obtain ⟨⟨hmem, hne⟩, hnew⟩ := h
    by_cases hdst : dst = b
    · subst hdst
      simp only [if_true]
      refine ⟨?_, ?_⟩
      · rw [List.nodup_append]
        refine ⟨hnodup dst, by simp, fun x hx y hy heq => hnew ?_⟩
        rw [List.mem_singleton] at hy
        exact hy ▸ heq ▸ hx
      · rw [List.mem_append, List.mem_singleton, Prod.mk.injEq]
        constructor
        · rintro (h | rfl)
          · exact .inl h
          · exact .inr ⟨⟨rfl, rfl⟩, hmem, hne⟩
        · rintro (h | ⟨⟨rfl, _⟩, _⟩)
          · exact .inl h
          · exact .inr rfl
    · have hother : ¬ b = dst := Ne.symm hdst
      simp [hdst, hother, hnodup dst]
  · rename_i h
    refine ⟨hnodup dst, ⟨.inl, ?_⟩⟩
    rintro (hmem | ⟨heq, hdst, hne⟩)
    · exact hmem
    · obtain ⟨rfl, rfl⟩ := Prod.mk.inj heq
      by_contra hnew
      simp [hdst, hne, hnew] at h

/-- The degree of a node counts the nodes that it depends on. -/
def Links.Counted (nodes : List String) (links : Links) : Prop :=
  ∀ src, links.in_degree src = nodes.countP fun dst => src ∈ links.adj dst

theorem Links.Counted.add {nodes : List String} (hnodes : nodes.Nodup) {links : Links}
    (h : links.Counted nodes) (edge : String × String) : (links.add nodes edge).Counted nodes := by
  obtain ⟨a, b⟩ := edge
  intro src
  simp only [Links.add]
  split
  · rename_i hnew
    simp only [Bool.and_eq_true, List.contains_eq_mem, decide_eq_true_eq, bne_iff_ne, ne_eq,
      Bool.not_eq_true', decide_eq_false_iff_not] at hnew
    obtain ⟨⟨hmem, _⟩, hnew⟩ := hnew
    by_cases hsrc : src = a
    · subst hsrc
      simp only [if_true]
      rw [h src]
      -- exactly one node, `b`, is counted in addition
      have hsplit : ∀ l : List String, l.Nodup →
          l.countP (fun dst => src ∈ if dst = b then links.adj b ++ [src] else links.adj dst) =
            l.countP (fun dst => src ∈ links.adj dst) + if b ∈ l then 1 else 0 := by
        intro l hl
        induction l with
        | nil => simp
        | cons dst rest ih =>
            rw [List.nodup_cons] at hl
            rw [List.countP_cons, List.countP_cons, ih hl.2]
            by_cases heq : dst = b
            · subst heq
              simp [hl.1, hnew]
            · simp only [heq, if_false, List.mem_cons, Ne.symm heq, false_or]
              omega
      rw [hsplit nodes hnodes, if_pos hmem]
    · simp only [hsrc, if_false]
      rw [h src]
      refine List.countP_congr fun dst _ => ?_
      by_cases hdst : dst = b
      · subst hdst
        simp [hsrc]
      · simp [hdst]
  · exact h src

/-- The links of all edges. -/
theorem linksOf_spec {nodes : List String} (hnodes : nodes.Nodup)
    (edges : List (String × String)) :
    (∀ dst, ((linksOf nodes edges).adj dst).Nodup) ∧ (linksOf nodes edges).Counted nodes ∧
      ∀ src dst, src ∈ (linksOf nodes edges).adj dst ↔
        (src, dst) ∈ edges ∧ dst ∈ nodes ∧ dst ≠ src := by
  induction edges using List.reverseRecOn with
  | nil => exact ⟨fun _ => List.nodup_nil, fun src => by simp [linksOf], by simp [linksOf]⟩
  | append_singleton edges edge ih =>
      obtain ⟨hnodup, hcounted, hmem⟩ := ih
      have hsnoc : linksOf nodes (edges ++ [edge]) = (linksOf nodes edges).add nodes edge := by
        simp [linksOf]
      rw [hsnoc]
      refine ⟨fun dst => (Links.add_spec hnodup dst dst).1, hcounted.add hnodes edge, ?_⟩
      intro src dst
      rw [(Links.add_spec hnodup src dst).2, hmem, List.mem_append, List.mem_singleton, eq_comm]
      tauto

/-- The sort of a graph lists nodes, each once, each after the nodes it has an edge to, and
lists all of them exactly when these edges have no cycle. -/
theorem topologicalOrder_spec (sets : SetOrder) {nodes : List String} (hnodes : nodes.Nodup)
    {edges : List (String × String)} (hedges : ∀ e ∈ edges, e.1 ∈ nodes)
    {edge : String → String → Prop}
    (hedge : ∀ dst src, edge dst src ↔ (src, dst) ∈ edges ∧ dst ∈ nodes ∧ dst ≠ src) :
    (topologicalOrder sets nodes edges).Nodup ∧
      (∀ p ∈ topologicalOrder sets nodes edges, p ∈ nodes) ∧
      Kahn.Sorted edge (topologicalOrder sets nodes edges) ∧
      ((∀ p ∈ nodes, p ∈ topologicalOrder sets nodes edges) ↔ Kahn.Acyclic edge) := by
  obtain ⟨hnodup, hcounted, hmem⟩ := linksOf_spec hnodes edges
  have hperm := fun p => sets.perm ((linksOf nodes edges).adj p)
  have hsucc : ∀ p, (sets.list ((linksOf nodes edges).adj p)).Nodup := fun p =>
    (hperm p).nodup_iff.mpr (hnodup p)
  have hin : ∀ p, ∀ x ∈ sets.list ((linksOf nodes edges).adj p), x ∈ nodes := by
    intro p x hx
    rw [(hperm p).mem_iff, hmem] at hx
    exact hedges _ hx.1
  have hdegree : ∀ x ∈ nodes, (linksOf nodes edges).in_degree x =
      Kahn.pending (fun p => sets.list ((linksOf nodes edges).adj p)) nodes [] x := by
    intro x _
    rw [hcounted x, Kahn.pending]
    exact List.countP_congr fun p _ => by simp [(hperm p).mem_iff]
  have heq : Kahn.Edge (fun p => sets.list ((linksOf nodes edges).adj p)) nodes = edge := by
    funext dst src
    rw [Kahn.Edge, (hperm dst).mem_iff, hmem, hedge]
    exact propext ⟨fun h => h.2, fun h => ⟨h.2.1, h⟩⟩
  have hspec := Kahn.sort_spec hnodes hsucc hin hdegree
  have hcomplete := Kahn.sort_complete_iff hnodes hsucc hin hdegree
  rw [heq] at hspec hcomplete
  exact ⟨hspec.1, hspec.2.1, hspec.2.2, hcomplete⟩

/-! ## The build order -/

/-- An edge between variants of the graph, as the sort sees it: a variant requires a name that
stands for another variant. -/
def Feeds (outputs : OutputIndex) (targets : List String) (dst src : String) : Prop :=
  dst ≠ src ∧ (∃ output ∈ reached outputs targets, dependencyId outputs output = dst) ∧
    ∃ output ∈ reached outputs targets, ∃ req ∈ requiresOf outputs output,
      dependencyId outputs output = src ∧ dependencyId outputs req = dst

/-- An order to build the targets in: the variants that they need, each once, each after the
variants that supply its requirements. -/
structure BuildOrder (outputs : OutputIndex) (targets order : List String) : Prop where
  nodup : order.Nodup
  mem : ∀ p, p ∈ order ↔ ∃ output ∈ reached outputs targets, dependencyId outputs output = p
  before : ∀ output ∈ reached outputs targets, ∀ req ∈ succOf outputs output,
    order.idxOf (dependencyId outputs req) < order.idxOf (dependencyId outputs output)

section

variable {outputs : OutputIndex} {targets : List String} {sets : SetOrder} {graph : BuildGraph}

/-- The edges of a collected graph are the edges between its variants. -/
theorem BuildGraph.Collected.feeds_iff (h : graph.Collected outputs targets sets)
    (dst src : String) :
    Feeds outputs targets dst src ↔ (src, dst) ∈ graph.edges ∧ dst ∈ graph.nodes.keys ∧ dst ≠ src := by
  rw [h.edges, h.nodes]
  constructor
  · rintro ⟨hne, hdst, output, ho, req, hreq, rfl, rfl⟩
    exact ⟨⟨output, ho, req, hreq, rfl⟩, hdst, hne⟩
  · rintro ⟨⟨output, ho, req, hreq, heq⟩, hdst, hne⟩
    obtain ⟨rfl, rfl⟩ := Prod.mk.inj heq
    exact ⟨hne, hdst, output, ho, req, hreq, rfl, rfl⟩

/-- The order of a collected graph. -/
theorem BuildGraph.Collected.order_spec (h : graph.Collected outputs targets sets) :
    graph.order.Nodup ∧ (∀ p ∈ graph.order, p ∈ graph.nodes.keys) ∧
      Kahn.Sorted (Feeds outputs targets) graph.order ∧
      ((∀ p ∈ graph.nodes.keys, p ∈ graph.order) ↔ Kahn.Acyclic (Feeds outputs targets)) := by
  have hedges : ∀ e ∈ graph.edges, e.1 ∈ graph.nodes.keys := by
    intro e he
    obtain ⟨output, ho, req, _, rfl⟩ := (h.edges e).mp he
    exact (h.nodes _).mpr ⟨output, ho, rfl⟩
  rw [h.order]
  exact topologicalOrder_spec sets h.nodup hedges h.feeds_iff

/-- The order of a collected graph is a build order exactly when the edges between its variants
have no cycle. -/
theorem BuildGraph.Collected.buildOrder_iff (h : graph.Collected outputs targets sets) :
    BuildOrder outputs targets graph.order ↔ Kahn.Acyclic (Feeds outputs targets) := by
  obtain ⟨hnodup, hsub, hsorted, hcomplete⟩ := h.order_spec
  constructor
  · intro horder
    refine hcomplete.mp fun p hp => ?_
    exact (horder.mem p).mpr ((h.nodes p).mp hp)
  · intro hacyclic
    have hall := hcomplete.mpr hacyclic
    refine ⟨hnodup, fun p => ?_, fun output ho req hreq => ?_⟩
    · rw [← h.nodes]
      exact ⟨hsub p, hall p⟩
    · have hreached : req ∈ reached outputs targets :=
        DepthFirst.succ_mem_seen ho (Set.notMem_empty output) hreq
      have hfeeds : Feeds outputs targets (dependencyId outputs req) (dependencyId outputs output) :=
        ⟨h.apart output ho req hreq, ⟨req, hreached, rfl⟩, output, ho, req,
          (List.mem_filter.mp hreq).1, rfl, rfl⟩
      have hmem := hall _ ((h.nodes _).mpr ⟨output, ho, rfl⟩)
      exact hsorted.idxOf_lt hmem hfeeds

end

/-- `build_graph` returns only for targets that the index marks buildable. -/
theorem targets_of_buildGraph {sets : SetOrder} {targets : List String}
    {providers : List (List Instance)} {context : Dict String String} {build_dir : BuildDir}
    {outputs : OutputIndex} {graph : BuildGraph}
    (hindex : buildOutputIndex providers context (some build_dir) = .ok outputs)
    (h : buildGraph sets targets providers context build_dir = .ok graph) :
    ∀ target ∈ targets, target ∈ buildableSet outputs := by
  unfold buildGraph at h
  rw [hindex] at h
  simp only [Except.ok_bind] at h
  cases hfind : targets.find? (fun target => (providerId outputs target).isNone) with
  | some target =>
      rw [hfind] at h
      cases hget : outputs.get? target <;> simp [hget] at h
  | none =>
      intro target htarget
      have := List.find?_eq_none.mp hfind target htarget
      rw [← internal_iff, internal, Option.isSome_iff_ne_none]
      simpa using this

/-- What `build_graph` returns is the graph of what the targets lead to. -/
theorem collected_of_buildGraph {sets : SetOrder} {targets : List String}
    {providers : List (List Instance)} {context : Dict String String} {build_dir : BuildDir}
    {graph : BuildGraph} (h : buildGraph sets targets providers context build_dir = .ok graph) :
    ∃ outputs, buildOutputIndex providers context (some build_dir) = .ok outputs ∧
      (∀ target ∈ targets, target ∈ buildableSet outputs) ∧
      graph.Collected outputs targets sets := by
  cases hindex : buildOutputIndex providers context (some build_dir) with
  | error e =>
      unfold buildGraph at h
      rw [hindex] at h
      simp at h
  | ok outputs =>
      have htargets := targets_of_buildGraph hindex h
      rcases buildGraph_cases sets hindex htargets with
        ⟨_, cycle, hcycle⟩ | ⟨_, graph', hgraph', hcollected⟩
      · simp [hcycle] at h
      · obtain rfl : graph' = graph := Except.ok.inj (hgraph'.symm.trans h)
        exact ⟨outputs, rfl, htargets, hcollected⟩

/-- What buildable targets lead to can be built. -/
theorem buildable_of_reached {outputs : OutputIndex} {targets : List String}
    (htargets : ∀ target ∈ targets, target ∈ buildableSet outputs) {output : String}
    (h : output ∈ reached outputs targets) : output ∈ buildableSet outputs := by
  rcases h with h | ⟨target, htarget, _, hpath⟩
  · exact absurd h (Set.notMem_empty output)
  · cases hpath with
    | refl => exact htargets _ htarget
    | tail _ hstep => exact internal_iff.mp (List.mem_filter.mp hstep.1).2

/-- The index lists what the catalogue offers. -/
theorem offers_of_get? {providers : List (List Instance)} {context : Dict String String}
    {build_dir : Option BuildDir} {outputs : OutputIndex}
    (h : buildOutputIndex providers context build_dir = .ok outputs) {output : String}
    {record : Record} (hget : outputs.get? output = some record) :
    Offers providers output record.inst := by
  obtain ⟨registered, hregistered, helim⟩ := Except.bind_eq_ok.mp h
  obtain ⟨record₀, hget₀, hinst, _⟩ := (eliminate_spec helim).1.record output record hget
  rw [hinst]
  exact ((registered_get?_iff hregistered).mp hget₀).1

/-- A graph needs only outputs that the catalogue offers. -/
theorem offers_of_needed {sets : SetOrder} {targets : List String}
    {providers : List (List Instance)} {context : Dict String String} {build_dir : BuildDir}
    {graph : BuildGraph} (h : buildGraph sets targets providers context build_dir = .ok graph)
    {p output : String} (hneeded : output ∈ graph.needed.getD p []) :
    ∃ inst, Offers providers output inst := by
  obtain ⟨outputs, hindex, htargets, hcollected⟩ := collected_of_buildGraph h
  have hreached := ((hcollected.needed p output).mp hneeded).1
  obtain ⟨record, hget, _⟩ := buildable_of_reached htargets hreached
  exact ⟨record.inst, offers_of_get? hindex hget⟩

/-- **The build order.** The order that `build_graph` returns is a build order of the targets,
and it raises when there is none, exactly when the edges between the variants have no cycle or
the visits of the targets, on the first way to each output, come back to a variant. -/
theorem buildGraph_order_iff (sets : SetOrder) (targets : List String)
    (providers : List (List Instance)) (context : Dict String String) (build_dir : BuildDir) :
    (∀ outputs, buildOutputIndex providers context (some build_dir) = .ok outputs →
      (∀ graph, buildGraph sets targets providers context build_dir = .ok graph →
        (∀ p, p ∈ graph.order ↔ p ∈ graph.nodes.keys) ∧ BuildOrder outputs targets graph.order) ∧
      ((¬ ∃ order, BuildOrder outputs targets order) →
        ∃ e, buildGraph sets targets providers context build_dir = .error e)) ↔
    ∀ outputs, buildOutputIndex providers context (some build_dir) = .ok outputs →
      (∀ target ∈ targets, target ∈ buildableSet outputs) →
      Kahn.Acyclic (Feeds outputs targets) ∨
        DepthFirst.Closes (succOf outputs) (dependencyId outputs) ∅ [] targets := by
  refine forall₂_congr fun outputs hindex => ?_
  constructor
  · intro h htargets
    rcases buildGraph_cases sets hindex htargets with ⟨hcloses, _⟩ | ⟨_, graph, hgraph, hcollected⟩
    · exact .inr hcloses
    · exact .inl (hcollected.buildOrder_iff.mp (h.1 graph hgraph).2)
  · intro h
    have hordered : ∀ graph, buildGraph sets targets providers context build_dir = .ok graph →
        (∀ p, p ∈ graph.order ↔ p ∈ graph.nodes.keys) ∧
          BuildOrder outputs targets graph.order := by
      intro graph hgraph
      have htargets := targets_of_buildGraph hindex hgraph
      rcases buildGraph_cases sets hindex htargets with
        ⟨_, cycle, hcycle⟩ | ⟨hopen, graph', hgraph', hcollected⟩
      · simp [hcycle] at hgraph
      · obtain rfl : graph' = graph := Except.ok.inj (hgraph'.symm.trans hgraph)
        have horder := hcollected.buildOrder_iff.mpr ((h htargets).resolve_right hopen)
        exact ⟨fun p => (horder.mem p).trans (hcollected.nodes p).symm, horder⟩
    refine ⟨hordered, fun hnone => ?_⟩
    cases hgraph : buildGraph sets targets providers context build_dir with
    | error e => exact ⟨e, rfl⟩
    | ok graph => exact absurd ⟨graph.order, (hordered graph hgraph).2⟩ hnone

/-- Two outputs, the first of which requires an output of `runtimeProvider`. -/
def toolchainProvider : Instance where
  id := "toolchain"
  provider := "toolchain"
  output_platform := none
  context := []
  metadata := [("provides", .dict [
    ("compiler", .dict [("requires", .dict [("headers", .dict [])])]), ("linker", .dict [])])]

/-- Two outputs, the second of which requires an output of `toolchainProvider`. -/
def runtimeProvider : Instance where
  id := "runtime"
  provider := "runtime"
  output_platform := none
  context := []
  metadata := [("provides", .dict [
    ("headers", .dict []), ("library", .dict [("requires", .dict [("linker", .dict [])])])])]

/-- Two variants that need each other through different outputs: no visit comes back to its
chain, and the order that is returned holds neither of them. -/
theorem mutual_variants_unordered :
    ¬ ∀ graph, buildGraph ⟨id, fun _ => .refl _⟩ ["compiler", "library"]
        [[toolchainProvider], [runtimeProvider]] [] (fun _ => false) = .ok graph →
      ∀ p, p ∈ graph.order ↔ p ∈ graph.nodes.keys := by
  have heval : (buildGraph ⟨id, fun _ => .refl _⟩ ["compiler", "library"]
      [[toolchainProvider], [runtimeProvider]] [] (fun _ => false)).toOption.map
        (fun graph => (graph.order, graph.nodes.keys)) = some ([], ["toolchain", "runtime"]) := by
    decide +kernel
  intro h
  cases hgraph : buildGraph ⟨id, fun _ => .refl _⟩ ["compiler", "library"]
      [[toolchainProvider], [runtimeProvider]] [] (fun _ => false) with
  | error e => simp [hgraph, Except.toOption] at heval
  | ok graph =>
      simp only [hgraph, Except.toOption, Option.map_some, Option.some.injEq, Prod.mk.injEq] at heval
      have := (h graph hgraph "runtime").mpr (by simp [heval.2])
      simp [heval.1] at this

end Mountin
