import FeatureGraph.Proofs.Ancestry

/-!
# Tours of an ancestry

A tour starts from a node and goes along the edges to parents, depth first.  A node to which it
comes for the first time is described, and the tour goes on from there.  A node that has been
described is not described again: the tour refers to the level of its description, and turns back.
So a tour comes to an end on a cycle too.

* `Tour` is the course of a tour, one constructor for each kind of arrival.  What has been described
  is carried along, and `Tour.described_eq` reads it off the arrivals.
* `Tour.invariant` is what the edges keep.  `Tour.arrives` and `Tour.closed` say that nothing is
  left out, `Tour.nodup` that nothing is described twice, `Tour.edges` that each edge is gone along
  once, and `Tour.refers` that references lead back.
* `Tour.complete` puts them together for the tour of one node.
-/

namespace FeatureGraph

/-! ## Stops and arrivals -/

/-- A node to which a tour comes, along an edge from a child, and the path to it. -/
structure Stop where
  node : NodeId
  /-- The child and the position among its parents; none at the start. -/
  edge : Option (NodeId × Nat)
  path : List Bool

/-- Levels count from one. -/
def Stop.level (s : Stop) : Nat := s.path.length + 1

/-- What becomes of a stop. -/
structure Arrival extends Stop where
  /-- The level at which the node has been described before, if it has been. -/
  known : Option Nat

/-- What an arrival describes. -/
def Arrival.description? (a : Arrival) : Option (NodeId × Nat) :=
  match a.known with
  | none => some (a.node, a.level)
  | some _ => none

/-- The nodes that arrivals describe, with their levels, the last one first. -/
def described (arrivals : List Arrival) : List (NodeId × Nat) :=
  (arrivals.filterMap Arrival.description?).reverse

@[simp] theorem described_nil : described [] = [] := rfl

@[simp] theorem described_append (arrivals later : List Arrival) :
    described (arrivals ++ later) = described later ++ described arrivals := by
  simp [described]

@[simp] theorem described_first (s : Stop) (arrivals : List Arrival) :
    described (⟨s, none⟩ :: arrivals) = described arrivals ++ [(s.node, s.level)] := by
  simp [described, Arrival.description?]

@[simp] theorem described_again (s : Stop) (level : Nat) (arrivals : List Arrival) :
    described (⟨s, some level⟩ :: arrivals) = described arrivals :=
  rfl

theorem mem_described {arrivals : List Arrival} {id : NodeId} {level : Nat} :
    (id, level) ∈ described arrivals ↔
      ∃ a ∈ arrivals, a.known = none ∧ a.node = id ∧ a.level = level := by
  simp only [described, List.mem_reverse, List.mem_filterMap]
  refine exists_congr fun a => and_congr_right fun _ => ?_
  cases hknown : a.known with
  | none => simp [Arrival.description?, hknown]
  | some k => simp [Arrival.description?, hknown]

/-- Each arrival that is a reference refers to something that has been described before. -/
def Refers : List (NodeId × Nat) → List Arrival → Prop
  | _, [] => True
  | seen, a :: arrivals =>
    (∀ level, a.known = some level → (a.node, level) ∈ seen) ∧
      Refers (described [a] ++ seen) arrivals

theorem refers_append {seen : List (NodeId × Nat)} {arrivals later : List Arrival} :
    Refers seen (arrivals ++ later) ↔
      Refers seen arrivals ∧ Refers (described arrivals ++ seen) later := by
  induction arrivals generalizing seen with
  | nil => simp [Refers]
  | cons a arrivals ih =>
    rw [List.cons_append, Refers, Refers, ih, and_assoc, ← List.append_assoc,
      ← described_append, List.singleton_append]

theorem mem_of_lookup {seen : List (NodeId × Nat)} {id : NodeId} {level : Nat}
    (h : seen.lookup id = some level) : (id, level) ∈ seen := by
  obtain ⟨before, after, rfl, _⟩ := List.lookup_eq_some_iff.1 h
  simp

theorem lookup_eq_none {seen : List (NodeId × Nat)} {id : NodeId} :
    seen.lookup id = none ↔ id ∉ seen.map Prod.fst := by
  rw [List.lookup_eq_none_iff]
  constructor
  · intro h hid
    obtain ⟨entry, hentry, rfl⟩ := List.mem_map.1 hid
    simpa using h entry hentry
  · intro h entry hentry
    exact bne_iff_ne.2 fun heq => h (heq ▸ List.mem_map_of_mem hentry)

namespace NodeTable

variable {α : Type} {t : NodeTable α}

/-- The edges from a node to its parents. -/
def edgesFrom (t : NodeTable α) (id : NodeId) : List (Option (NodeId × Nat)) :=
  (List.range (t.parentList id).length).map fun i => some (id, i)

/-- The stops at the parents of a node. -/
def onward (t : NodeTable α) (s : Stop) : List Stop :=
  (t.parentList s.node).zipIdx.map fun p =>
    ⟨p.1, some (s.node, p.2), s.path ++ [p.2 + 1 == (t.parentList s.node).length]⟩

@[simp] theorem map_edge_onward (t : NodeTable α) (s : Stop) :
    (t.onward s).map Stop.edge = t.edgesFrom s.node := by
  rw [onward, edgesFrom, List.map_map, List.range_eq_range', ← List.zipIdx_map_snd 0, List.map_map]
  rfl

theorem mem_onward {s next : Stop} (h : next ∈ t.onward s) :
    ∃ i, (t.parentList s.node)[i]? = some next.node ∧ next.edge = some (s.node, i) := by
  obtain ⟨⟨p, i⟩, hp, rfl⟩ := List.mem_map.1 h
  exact ⟨i, List.mem_zipIdx_iff_getElem?.1 hp, rfl⟩

theorem mem_parentList_of_mem_onward {s next : Stop} (h : next ∈ t.onward s) :
    next.node ∈ t.parentList s.node := by
  obtain ⟨i, hparent, _⟩ := mem_onward h
  exact List.mem_of_getElem? hparent

theorem exists_onward {s : Stop} {p : NodeId} (hp : p ∈ t.parentList s.node) :
    ∃ next ∈ t.onward s, next.node = p := by
  obtain ⟨i, hi⟩ := List.mem_iff_getElem?.1 hp
  have hentry : (p, i) ∈ (t.parentList s.node).zipIdx := List.mk_mem_zipIdx_iff_getElem?.2 hi
  exact ⟨_, List.mem_map_of_mem hentry, rfl⟩

/-- The course of a tour: what has been described, the stops to go on with, the arrivals that come
of them, and what has been described then. -/
inductive Tour (t : NodeTable α) :
    List (NodeId × Nat) → List Stop → List Arrival → List (NodeId × Nat) → Prop
  | done (seen : List (NodeId × Nat)) : Tour t seen [] [] seen
  | again {seen seen' : List (NodeId × Nat)} {stop : Stop} {stops : List Stop}
      {arrivals : List Arrival} {level : Nat} (known : seen.lookup stop.node = some level)
      (rest : Tour t seen stops arrivals seen') :
      Tour t seen (stop :: stops) (⟨stop, some level⟩ :: arrivals) seen'
  | first {seen seen' seen'' : List (NodeId × Nat)} {stop : Stop} {stops : List Stop}
      {inner arrivals : List Arrival} (new : seen.lookup stop.node = none)
      (inward : Tour t ((stop.node, stop.level) :: seen) (t.onward stop) inner seen')
      (rest : Tour t seen' stops arrivals seen'') :
      Tour t seen (stop :: stops) (⟨stop, none⟩ :: (inner ++ arrivals)) seen''

namespace Tour

variable {seen seen' : List (NodeId × Nat)} {stops : List Stop} {arrivals : List Arrival}

/-- A tour of one stop goes on with others. -/
theorem followedBy {stop : Stop} {later : List Arrival} {seen'' : List (NodeId × Nat)}
    (h : t.Tour seen [stop] arrivals seen') (h' : t.Tour seen' stops later seen'') :
    t.Tour seen (stop :: stops) (arrivals ++ later) seen'' := by
  cases h with
  | again known rest =>
    cases rest
    exact .again known h'
  | first new inward rest =>
    cases rest
    rw [List.append_nil, List.cons_append]
    exact .first new inward h'

/-- What has been described is what the arrivals describe. -/
theorem described_eq (h : t.Tour seen stops arrivals seen') :
    seen' = described arrivals ++ seen := by
  induction h with
  | done seen => rfl
  | again known rest ih => rw [ih, described_again]
  | first new inward rest ihInward ihRest => simp [ihRest, ihInward]

theorem keeps (h : t.Tour seen stops arrivals seen') {id : NodeId} (hid : id ∈ seen.map Prod.fst) :
    id ∈ seen'.map Prod.fst := by
  rw [h.described_eq, List.map_append]
  exact List.mem_append_right _ hid

/-- What holds of the stops and goes along with the edges holds of all arrivals. -/
theorem invariant {P : Stop → Prop} (hP : ∀ s, P s → ∀ next ∈ t.onward s, P next)
    (h : t.Tour seen stops arrivals seen') (hstops : ∀ s ∈ stops, P s) :
    ∀ a ∈ arrivals, P a.toStop := by
  induction h with
  | done seen => simp
  | again known rest ih =>
    obtain ⟨hstop, hrest⟩ := List.forall_mem_cons.1 hstops
    exact List.forall_mem_cons.2 ⟨hstop, ih hrest⟩
  | first new inward rest ihInward ihRest =>
    obtain ⟨hstop, hrest⟩ := List.forall_mem_cons.1 hstops
    refine List.forall_mem_cons.2 ⟨hstop, fun a hv => ?_⟩
    exact (List.mem_append.1 hv).elim (ihInward (hP _ hstop) a) (ihRest hrest a)

/-- From nodes that are needed a tour arrives at nodes that are needed. -/
theorem needs (h : t.Tour seen stops arrivals seen') {root : NodeId}
    (hstops : ∀ s ∈ stops, t.Needs root s.node) : ∀ a ∈ arrivals, t.Needs root a.node :=
  h.invariant (P := fun s => t.Needs root s.node)
    (fun _ hs _ hnext => hs.tail (mem_parentList_of_mem_onward hnext)) hstops

/-- No node is described twice. -/
theorem nodup (h : t.Tour seen stops arrivals seen') (hseen : (seen.map Prod.fst).Nodup) :
    (seen'.map Prod.fst).Nodup := by
  induction h with
  | done seen => exact hseen
  | again known rest ih => exact ih hseen
  | first new inward rest ihInward ihRest =>
    exact ihRest (ihInward (List.nodup_cons.2 ⟨lookup_eq_none.1 new, hseen⟩))

/-- Each stop is described, now or before. -/
theorem arrives (h : t.Tour seen stops arrivals seen') :
    ∀ s ∈ stops, s.node ∈ seen'.map Prod.fst := by
  induction h with
  | done seen => simp
  | @again seen _ stop _ _ level known rest ih =>
    have hstop : stop.node ∈ seen.map Prod.fst :=
      List.mem_map_of_mem (f := Prod.fst) (mem_of_lookup known)
    exact List.forall_mem_cons.2 ⟨rest.keeps hstop, ih⟩
  | first new inward rest ihInward ihRest =>
    exact List.forall_mem_cons.2 ⟨rest.keeps (inward.keeps (by simp)), ihRest⟩

/-- With a node that is described on the tour all its parents are. -/
theorem closed (h : t.Tour seen stops arrivals seen') :
    ∀ id ∈ seen'.map Prod.fst, id ∈ seen.map Prod.fst ∨
      ∀ p ∈ t.parentList id, p ∈ seen'.map Prod.fst := by
  induction h with
  | done seen => exact fun id hid => .inl hid
  | again known rest ih => exact ih
  | @first seen _ _ stop _ _ _ new inward rest ihInward ihRest =>
    intro id hid
    rcases ihRest id hid with hbefore | hparents
    · rcases ihInward id hbefore with hstart | hparents
      · rcases List.mem_cons.1 hstart with rfl | hstart
        · right
          intro p hp
          obtain ⟨next, hnext, rfl⟩ := exists_onward (s := stop) hp
          exact rest.keeps (inward.arrives next hnext)
        · exact .inl hstart
      · exact .inr fun p hp => rest.keeps (hparents p hp)
    · exact .inr hparents

/-- The tour comes along the edges to its stops, and along each edge from a node that it
describes. -/
theorem edges (h : t.Tour seen stops arrivals seen') :
    (arrivals.map fun a => a.edge).Perm
      (stops.map Stop.edge ++ ((described arrivals).map Prod.fst).flatMap t.edgesFrom) := by
  induction h with
  | done seen => exact List.Perm.refl _
  | again known rest ih => simpa using ih
  | first new inward rest ihInward ihRest =>
    refine List.perm_iff_count.2 fun edge => ?_
    have hinner := ihInward.count_eq edge
    have hrest := ihRest.count_eq edge
    simp only [map_edge_onward, List.count_append] at hinner hrest
    simp only [List.map_cons, List.map_append, described_first, described_append, List.map_nil,
      List.flatMap_append, List.flatMap_cons, List.flatMap_nil, List.append_nil, List.cons_append,
      List.count_cons, List.count_append]
    omega

/-- References lead back to descriptions. -/
theorem refers (h : t.Tour seen stops arrivals seen') : Refers seen arrivals := by
  induction h with
  | done seen => trivial
  | again known rest ih =>
    refine ⟨fun level hlevel => ?_, by simpa using ih⟩
    obtain rfl := Option.some.inj hlevel
    exact mem_of_lookup known
  | first new inward rest ihInward ihRest =>
    refine ⟨nofun, refers_append.2 ⟨by simpa using ihInward, ?_⟩⟩
    rw [inward.described_eq] at ihRest
    simpa using ihRest

end Tour

/-! ## The tour of one node -/

/-- The tour comes to a stop along an edge. -/
def AlongEdge (t : NodeTable α) (s : Stop) : Prop :=
  ∃ child i, s.edge = some (child, i) ∧ (t.parentList child)[i]? = some s.node

/-- What a tour of all that a node needs comes to. -/
structure Surveyed (t : NodeTable α) (target : NodeId) (arrivals : List Arrival) : Prop where
  /-- The first arrival describes the node itself, and all others come along an edge. -/
  start : ∃ later, arrivals = ⟨⟨target, none, []⟩, none⟩ :: later ∧
    ∀ a ∈ later, t.AlongEdge a.toStop
  /-- Nothing is described twice. -/
  nodup : ((described arrivals).map Prod.fst).Nodup
  /-- What is described is what the node needs. -/
  mem_iff : ∀ id, id ∈ (described arrivals).map Prod.fst ↔ t.Needs target id
  /-- The tour goes along each edge from such a node once. -/
  edges : (arrivals.map fun a => a.edge).Perm
    (none :: ((described arrivals).map Prod.fst).flatMap t.edgesFrom)
  /-- What is referred to has been described before, at the level that the reference names. -/
  back : ∀ {before after : List Arrival} {a : Arrival} {level : Nat},
    arrivals = before ++ a :: after → a.known = some level →
      ∃ u ∈ before, u.known = none ∧ u.node = a.node ∧ u.level = level

/-- A tour of one node arrives at all that the node needs. -/
theorem Tour.complete {target : NodeId} {arrivals : List Arrival} {seen' : List (NodeId × Nat)}
    (h : t.Tour [] [⟨target, none, []⟩] arrivals seen') : t.Surveyed target arrivals where
  start := by
    cases h with
    | again known rest => cases known
    | first new inward rest =>
      cases rest
      have honward : ∀ s : Stop, ∀ next ∈ t.onward s, t.AlongEdge next := by
        intro s next hnext
        obtain ⟨i, hparent, hedge⟩ := mem_onward hnext
        exact ⟨s.node, i, hedge, hparent⟩
      exact ⟨_, by rw [List.append_nil], inward.invariant (fun s _ => honward s) (honward _)⟩
  nodup := by
    have hnodup := h.nodup List.nodup_nil
    rwa [h.described_eq, List.append_nil] at hnodup
  mem_iff id := by
    have hseen : seen' = described arrivals := by rw [h.described_eq, List.append_nil]
    constructor
    · intro hid
      obtain ⟨⟨_, level⟩, hentry, rfl⟩ := List.mem_map.1 hid
      obtain ⟨a, ha, _, rfl, _⟩ := mem_described.1 hentry
      exact h.needs (List.forall_mem_singleton.2 Relation.ReflTransGen.refl) a ha
    · intro hneeds
      rw [← hseen]
      induction hneeds with
      | refl => exact h.arrives ⟨target, none, []⟩ (by simp)
      | tail _ hp ih => exact (h.closed _ ih).resolve_left (by simp) _ hp
  edges := h.edges
  back := by
    rintro before after a level rfl hknown
    have hrefers := (refers_append.1 h.refers).2.1 level hknown
    rw [List.append_nil] at hrefers
    exact mem_described.1 hrefers

variable {target : NodeId} {arrivals : List Arrival}

/-- There is one arrival at the node itself, and one along each edge from what it needs. -/
theorem Surveyed.length_eq (h : t.Surveyed target arrivals) : arrivals.length =
    1 + (((described arrivals).map Prod.fst).map fun id => (t.parentList id).length).sum := by
  have hlength := h.edges.length_eq
  rw [List.length_map, List.length_cons, List.length_flatMap] at hlength
  simpa [edgesFrom, Nat.add_comm] using hlength

/-- What a node of a linked table needs is in the table. -/
theorem Linked.lt_of_needs (ht : t.Linked) (htarget : target < t.size) {id : NodeId}
    (h : t.Needs target id) : id < t.size := by
  induction h with
  | refl => exact htarget
  | tail _ hp ih => exact ht.known _ ih _ hp

theorem Surveyed.length_eq_sum [DecidablePred (t.Needs target)] (h : t.Surveyed target arrivals)
    (ht : t.Linked) (htarget : target < t.size) : arrivals.length =
      1 + ∑ id ∈ Finset.range t.size with t.Needs target id, (t.parentList id).length := by
  have hneeded : (Finset.range t.size).filter (t.Needs target) =
      ((described arrivals).map Prod.fst).toFinset := by
    ext id
    rw [Finset.mem_filter, Finset.mem_range, List.mem_toFinset, h.mem_iff]
    exact and_iff_right_of_imp (ht.lt_of_needs htarget)
  rw [h.length_eq, hneeded, List.sum_toFinset _ h.nodup]

end NodeTable

end FeatureGraph
