import FeatureGraph.Arith.Double
import FeatureGraph.Proofs.Numeral
import FeatureGraph.Proofs.Representation

/-!
# Names of new nodes

A new node is called as requested if that name is free, and else by the request with the least
number that makes it free.

* `freeName_of_not_mem` and `freeName_of_mem` are the two cases, and `freeName_not_mem` says that
  the name was free before.  The number is found among the first few, since a request with
  different numbers makes different names.
* `freeName_congr` says that the choice depends on which names are in use, and not on how they
  are listed.
* `Renames` is the loop that looks for the number, and `exists_renames` says that it ends.
* `NodeTable.Named` says that the names in use are those of the nodes.  Every action keeps it.
* `addNodes_keeps_names_apart` says that no two nodes get the same name, however many are added.
-/

namespace FeatureGraph

namespace NodeTable

/-! ## Free names -/

theorem toList_numbered (name : String) (k : Nat) :
    (numbered name k).toList = name.toList ++ '_' :: Decimal.digitsOf k := by
  simp [numbered, Decimal.digitsOf, Nat.repr, toString]

/-- Different numbers make different names. -/
theorem numbered_injective (name : String) : Function.Injective (numbered name) := by
  intro j k h
  have hlist := congrArg String.toList h
  rw [toList_numbered, toList_numbered, List.append_cancel_left_eq, List.cons.injEq] at hlist
  have hdigits := congrArg Decimal.ofDigits hlist.2
  rwa [Decimal.ofDigits_digitsOf, Decimal.ofDigits_digitsOf] at hdigits

variable {used used' : List String} {name : String}

theorem numbered_ne_self (name : String) (k : Nat) : numbered name k ≠ name := by
  intro h
  have hlength := congrArg (fun s => s.toList.length) h
  simp [toList_numbered] at hlength

/-- A name and its numbers that are in use are different names. -/
theorem lt_length_of_taken {k : Nat} (hname : name ∈ used)
    (htaken : ∀ j < k, numbered name (j + 1) ∈ used) : k < used.length := by
  have hsubset : name :: (List.range k).map (fun j => numbered name (j + 1)) ⊆ used := by
    refine List.cons_subset.2 ⟨hname, fun s hs => ?_⟩
    obtain ⟨j, hj, rfl⟩ := List.mem_map.1 hs
    exact htaken j (List.mem_range.1 hj)
  have hnodup : (name :: (List.range k).map fun j => numbered name (j + 1)).Nodup := by
    refine List.nodup_cons.2 ⟨fun hin => ?_, ?_⟩
    · obtain ⟨j, _, hj⟩ := List.mem_map.1 hin
      exact numbered_ne_self name (j + 1) hj
    · exact List.nodup_range.map fun _ _ h => Nat.succ.inj (numbered_injective name h)
  have hlength := (List.subperm_of_subset hnodup hsubset).length_le
  rw [List.length_cons, List.length_map, List.length_range] at hlength
  omega

/-- As many numbers as there are names in use suffice. -/
theorem exists_free_number (hname : name ∈ used) :
    ∃ k < used.length, numbered name (k + 1) ∉ used := by
  by_contra hall
  have htaken : ∀ j < used.length, numbered name (j + 1) ∈ used := fun j hj => by
    by_contra hfree
    exact hall ⟨j, hj, hfree⟩
  exact Nat.lt_irrefl _ (lt_length_of_taken hname htaken)

/-- A free name is taken as it is. -/
theorem freeName_of_not_mem (h : name ∉ used) : freeName used name = name := by
  rw [freeName, if_neg (by simpa using h)]

/-- A name in use gets the least number that makes it free. -/
theorem freeName_of_mem (h : name ∈ used) :
    ∃ k, freeName used name = numbered name (k + 1) ∧ numbered name (k + 1) ∉ used ∧
      ∀ j < k, numbered name (j + 1) ∈ used := by
  classical
  have hfree : ∃ k, numbered name (k + 1) ∉ used :=
    let ⟨k, _, hk⟩ := exists_free_number h
    ⟨k, hk⟩
  obtain ⟨bound, hbound, hnot⟩ := exists_free_number h
  have hleast : ∀ j < Nat.find hfree, numbered name (j + 1) ∈ used := fun j hj =>
    not_not.1 (Nat.find_min hfree hj)
  refine ⟨Nat.find hfree, ?_, Nat.find_spec hfree, hleast⟩
  have hle : Nat.find hfree ≤ used.length :=
    Nat.le_of_lt (Nat.lt_of_le_of_lt (Nat.find_min' hfree hnot) hbound)
  obtain ⟨rest, hrest⟩ := Nat.exists_eq_add_of_le hle
  have hrange : List.range (used.length + 1) = List.range (Nat.find hfree) ++
      (Nat.find hfree) :: (List.range rest).map fun i => Nat.find hfree + (i + 1) := by
    rw [hrest, Nat.add_assoc, List.range_add, List.range_succ_eq_map, List.map_cons, List.map_map]
    rfl
  rw [freeName, if_pos (by simpa using h)]
  dsimp only
  rw [List.findSome?_eq_some_iff.2 ⟨_, _, _, hrange, ?_, ?_⟩]
  · rfl
  · rw [Std.HashSet.contains_ofList, if_neg (by simpa using Nat.find_spec hfree)]
    rfl
  · intro j hj
    rw [Std.HashSet.contains_ofList, if_pos (by simpa using hleast j (List.mem_range.1 hj))]

theorem freeName_not_mem (used : List String) (name : String) : freeName used name ∉ used := by
  by_cases h : name ∈ used
  · obtain ⟨k, hname, hfree, _⟩ := freeName_of_mem h
    exact hname ▸ hfree
  · exact (freeName_of_not_mem h).symm ▸ h

/-- How the names in use are listed does not matter. -/
theorem freeName_congr (h : ∀ s, s ∈ used' ↔ s ∈ used) (name : String) :
    freeName used' name = freeName used name := by
  by_cases hname : name ∈ used
  · obtain ⟨k, hk, hfree, hleast⟩ := freeName_of_mem hname
    obtain ⟨k', hk', hfree', hleast'⟩ := freeName_of_mem ((h name).2 hname)
    have heq : k' = k := by
      rcases Nat.lt_trichotomy k' k with hlt | heq | hlt
      · exact absurd ((h _).2 (hleast k' hlt)) hfree'
      · exact heq
      · exact absurd ((h _).1 (hleast' k hlt)) hfree
    rw [hk, hk', heq]
  · rw [freeName_of_not_mem hname, freeName_of_not_mem fun hin => hname ((h name).1 hin)]

/-! ## The loop that names a node -/

/-- The loop that names a new node, from a candidate and a counter to those that it ends with.
While the candidate is in use, the next one is the requested name with the counter appended. -/
inductive Renames (used : List String) (name : String) : String × Nat → String × Nat → Prop
  | stop {candidate : String} {k : Nat} (h : candidate ∉ used) :
      Renames used name (candidate, k) (candidate, k)
  | next {candidate : String} {k : Nat} {last : String × Nat} (h : candidate ∈ used)
      (hrest : Renames used name (numbered name k, k + 1) last) :
      Renames used name (candidate, k) last

/-- The loop goes up to the first number that makes the name free. -/
theorem renames_of_taken {n m : Nat} (htaken : ∀ j, n ≤ j → j < n + m → numbered name j ∈ used)
    (hfree : numbered name (n + m) ∉ used) :
    Renames used name (numbered name n, n + 1) (numbered name (n + m), n + m + 1) := by
  induction m generalizing n with
  | zero => exact .stop hfree
  | succ m ih =>
    have hnext : n + (m + 1) = n + 1 + m := by omega
    refine .next (htaken n (Nat.le_refl n) (by omega)) ?_
    rw [hnext] at hfree htaken ⊢
    exact ih (fun j hj => htaken j (by omega)) hfree

/-- The loop ends, with the free name.  Its counter has passed each name in use once at most. -/
theorem exists_renames {known : List String} (h : ∀ s ∈ used, s ∈ known) (name : String) :
    ∃ k ≤ known.length + 1, Renames used name (name, 1) (freeName used name, k) := by
  by_cases hname : name ∈ used
  · obtain ⟨k, hk, hfree, hleast⟩ := freeName_of_mem hname
    have hlt : k < known.length :=
      lt_length_of_taken (h name hname) fun j hj => h _ (hleast j hj)
    refine ⟨1 + k + 1, by omega, .next hname ?_⟩
    rw [hk, Nat.add_comm k 1]
    refine renames_of_taken (fun j hj hjk => ?_) (Nat.add_comm k 1 ▸ hfree)
    obtain ⟨i, rfl⟩ := Nat.exists_eq_add_of_le' hj
    exact hleast i (by omega)
  · exact ⟨1, by omega, (freeName_of_not_mem hname).symm ▸ .stop hname⟩

/-! ## Names in use -/

variable {α : Type}

/-- The names in use are those of the nodes. -/
def Named (t : NodeTable α) : Prop := ∀ s, s ∈ t.names ↔ s ∈ t.labels

theorem named_empty : ({} : NodeTable α).Named := by simp [Named]

theorem Named.addNode [Arith α] {t : NodeTable α} (ht : t.Named) (op : Primitive)
    (ps : List NodeId) (name : String) : (t.addNode op ps name).2.Named := by
  intro s
  simp only [NodeTable.addNode, List.mem_cons, Array.mem_push, ht s]
  exact or_comm

/-- Taking the names in use from the nodes changes the list and not what is on it. -/
theorem named_refreshNames (t : NodeTable α) : t.refreshNames.Named := by
  simp [Named, refreshNames]

/-- The name that a new node gets: the requested one if it is free, and else the request with the
least positive number that is. -/
def IsFirstFree (labels : Array String) (request label : String) : Prop :=
  label ∉ labels ∧ (label = request ∨
    request ∈ labels ∧ ∃ k ≥ 1, label = numbered request k ∧
      ∀ j, 1 ≤ j → j < k → numbered request j ∈ labels)

theorem Named.isFirstFree {t : NodeTable α} (ht : t.Named) (request : String) :
    IsFirstFree t.labels request (freeName t.names request) := by
  refine ⟨fun hin => freeName_not_mem t.names request ((ht _).2 hin), ?_⟩
  by_cases hrequest : request ∈ t.names
  · obtain ⟨k, hk, _, hleast⟩ := freeName_of_mem hrequest
    refine .inr ⟨(ht _).1 hrequest, k + 1, by omega, hk, fun j hj hjk => ?_⟩
    obtain ⟨i, rfl⟩ := Nat.exists_eq_add_of_le' hj
    exact (ht _).1 (hleast i (by omega))
  · exact .inl (freeName_of_not_mem hrequest)

/-! ## Adding nodes -/

variable [Arith α] {t : NodeTable α}

/-- What a node is added with. -/
structure Addition where
  op : Primitive
  parents : List NodeId
  name : String

/-- The table when some nodes have been added. -/
def addNodes (t : NodeTable α) (additions : List Addition) : NodeTable α :=
  additions.foldl (fun t a => (t.addNode a.op a.parents a.name).2) t

theorem addNodes_append (t : NodeTable α) (before after : List Addition) :
    t.addNodes (before ++ after) = (t.addNodes before).addNodes after :=
  List.foldl_append

theorem addNodes_cons (t : NodeTable α) (a : Addition) (additions : List Addition) :
    t.addNodes (a :: additions) = (t.addNode a.op a.parents a.name).2.addNodes additions := rfl

/-- No two nodes have the same name, and the names in use are those of the nodes. -/
structure NamedApart (t : NodeTable α) : Prop where
  nodup : t.labels.toList.Nodup
  named : t.Named

omit [Arith α] in
theorem namedApart_empty : ({} : NodeTable α).NamedApart := ⟨List.nodup_nil, named_empty⟩

omit [Arith α] in
theorem namedApart_refreshNames (ht : t.labels.toList.Nodup) : t.refreshNames.NamedApart :=
  ⟨ht, named_refreshNames t⟩

theorem NamedApart.addNode (ht : t.NamedApart) (op : Primitive) (ps : List NodeId)
    (name : String) : (t.addNode op ps name).2.NamedApart := by
  refine ⟨?_, ht.named.addNode op ps name⟩
  have hfree : freeName t.names name ∉ t.labels := (ht.named.isFirstFree name).1
  simp only [NodeTable.addNode, Array.toList_push]
  refine List.nodup_append.2 ⟨ht.nodup, List.nodup_singleton _, fun s hs s' hs' heq => ?_⟩
  rw [List.mem_singleton.1 hs'] at heq
  exact hfree (heq ▸ Array.mem_toList_iff.1 hs)

theorem NamedApart.addNodes (ht : t.NamedApart) (additions : List Addition) :
    (t.addNodes additions).NamedApart := by
  induction additions generalizing t with
  | nil => exact ht
  | cons a additions ih => exact ih (ht.addNode a.op a.parents a.name)

/-- A name that has been given stays. -/
theorem labels_prefix_addNodes (t : NodeTable α) (additions : List Addition) :
    t.labels.toList <+: (t.addNodes additions).labels.toList := by
  induction additions generalizing t with
  | nil => exact List.prefix_rfl
  | cons a additions ih =>
    refine List.IsPrefix.trans ?_ (ih (t.addNode a.op a.parents a.name).2)
    simp [NodeTable.addNode]

/-- Node names stay unique, from an empty table on and from any table whose names in use have been
taken from nodes with different names.  However many nodes are added, and by whatever names, no two
nodes have the same name, and the names in use are those of the nodes.  The loop that names a new
node ends, with a counter of at most one more than there are nodes; the node is called as requested
if that name is free, and else by the request with the least number that is free; and the names of
the nodes before it stay as they are. -/
theorem addNodes_keeps_names_apart
    (hstart : t = {} ∨ ∃ t' : NodeTable α, t'.labels.toList.Nodup ∧ t = t'.refreshNames)
    (additions : List Addition) :
    (t.addNodes additions).labels.toList.Nodup ∧
      (∀ s, s ∈ (t.addNodes additions).names ↔ s ∈ (t.addNodes additions).labels) ∧
      ∀ before a after, additions = before ++ a :: after →
        let old := t.addNodes before
        ∃ label k, Renames old.names a.name (a.name, 1) (label, k) ∧ k ≤ old.labels.size + 1 ∧
          IsFirstFree old.labels a.name label ∧
          old.labels.toList ++ [label] <+: (t.addNodes additions).labels.toList := by
  have ht : t.NamedApart := by
    rcases hstart with rfl | ⟨t', hnodup, rfl⟩
    · exact namedApart_empty
    · exact namedApart_refreshNames hnodup
  obtain ⟨hnodup, hnamed⟩ := ht.addNodes additions
  refine ⟨hnodup, hnamed, ?_⟩
  rintro before a after rfl old
  have hold : old.Named := (ht.addNodes before).named
  have hknown : ∀ s ∈ old.names, s ∈ old.labels.toList :=
    fun s hs => Array.mem_toList_iff.2 ((hold s).1 hs)
  obtain ⟨k, hk, hloop⟩ := exists_renames hknown a.name
  refine ⟨_, k, hloop, by simpa using hk, hold.isFirstFree a.name, ?_⟩
  have hprefix := labels_prefix_addNodes (old.addNode a.op a.parents a.name).2 after
  rw [addNodes_append, addNodes_cons]
  simpa [NodeTable.addNode] using hprefix

/-- The last request is for a name that is in use, and so is the first number that it could get. -/
def collidingAdditions : List Addition :=
  [⟨.input 0, [], "x"⟩, ⟨.linear, [0], "x_1"⟩, ⟨.linear, [0], "x"⟩]

theorem addNodes_keeps_names_apart_colliding :
    (({} : NodeTable Float).addNodes collidingAdditions).labels =
        #["x", "x_1", "x_2"] ∧
      (({} : NodeTable Float).addNodes collidingAdditions).labels.toList.Nodup := by
  refine ⟨?_, ?_⟩
  · simp [addNodes, collidingAdditions, NodeTable.addNode, freeName, numbered, List.range_succ,
      Std.HashSet.contains_ofList]
    decide +kernel
  · exact (addNodes_keeps_names_apart (.inl rfl) collidingAdditions).1

end NodeTable

theorem Graph.Reachable.named {α : Type} [Arith α] {g : Graph α} (h : g.Reachable) :
    g.table.Named := by
  induction h with
  | empty => exact NodeTable.named_empty
  | after h a ih =>
    rcases Graph.after_cases h.sound.table a with hsame | ⟨op, ps, name, htable, _⟩
    · intro s
      rw [hsame.names, hsame.labels]
      exact ih s
    · exact htable ▸ ih.addNode op ps name

end FeatureGraph
