import GraphQL.Proofs.Traversal.Enumeration
import Mathlib.Data.List.Basic

/-!
# Where nodes stand

Two nodes with the same content can stand at different places of a tree, so nodes are told apart by
their *addresses*, the child indices that lead to them (`Node.descend?`).  Preorder and postorder
are orders of addresses: both go through the children of a node from left to right, the first with
a node before all that is below it and the second with a node after.

`Node.Arranged` says of a list that it has the nodes at the addresses with some property, once each
and in a given order.  Lists arranged in the children of a node make one arranged in the node
(`Node.arranged_children`), by which enumeration is preorder (`Node.enumerate_arranged`).
-/

namespace GraphQL

/-! ### Orders of addresses -/

/-- `p` is the address of a node around the one at `q`. -/
def Above (p q : List Nat) : Prop := p <+: q ∧ p ≠ q

/-- `p` goes to an earlier child than `q` where the two part. -/
def LeftOf (p q : List Nat) : Prop := ∃ r i j, i < j ∧ r ++ [i] <+: p ∧ r ++ [j] <+: q

/-- Nodes come before those below them, and children from left to right. -/
def Preorder (p q : List Nat) : Prop := Above p q ∨ LeftOf p q

/-- Nodes come after those below them, and children from left to right. -/
def Postorder (p q : List Nat) : Prop := Above q p ∨ LeftOf p q

/-- An order that goes through the children of a node from left to right, and through each child as
through a node. -/
structure Branches (R : List Nat → List Nat → Prop) : Prop where
  /-- Addresses in one child are in the order that they have there. -/
  cons (i : Nat) {p q : List Nat} : R p q → R (i :: p) (i :: q)
  /-- What is in an earlier child is earlier. -/
  lt {i j : Nat} (p q : List Nat) : i < j → R (i :: p) (j :: q)

theorem not_above_nil (p : List Nat) : ¬ Above p [] :=
  fun ⟨h, hne⟩ => hne (List.prefix_nil.mp h)

theorem above_nil_cons (i : Nat) (p : List Nat) : Above [] (i :: p) :=
  ⟨List.nil_prefix, (List.cons_ne_nil i p).symm⟩

theorem above_cons_iff {i : Nat} {p q : List Nat} :
    Above p (i :: q) ↔ p = [] ∨ ∃ r, p = i :: r ∧ Above r q := by
  cases p with
  | nil => simp [above_nil_cons]
  | cons j p =>
    simp only [Above, List.cons_prefix_cons, ne_eq, List.cons.injEq, not_and, reduceCtorEq,
      false_or]
    constructor
    · rintro ⟨⟨rfl, h⟩, hne⟩
      exact ⟨p, ⟨rfl, rfl⟩, h, hne rfl⟩
    · rintro ⟨_, ⟨rfl, rfl⟩, h, hne⟩
      exact ⟨⟨rfl, h⟩, fun _ => hne⟩

theorem Above.cons {p q : List Nat} (i : Nat) (h : Above p q) : Above (i :: p) (i :: q) :=
  above_cons_iff.mpr (.inr ⟨p, rfl, h⟩)

theorem LeftOf.cons {p q : List Nat} (i : Nat) : LeftOf p q → LeftOf (i :: p) (i :: q)
  | ⟨r, j, k, hjk, hp, hq⟩ =>
    ⟨i :: r, j, k, hjk, (List.prefix_cons_inj i).mpr hp, (List.prefix_cons_inj i).mpr hq⟩

theorem LeftOf.of_lt {i j : Nat} (p q : List Nat) (h : i < j) : LeftOf (i :: p) (j :: q) :=
  ⟨[], i, j, h, by simp, by simp⟩

theorem branches_preorder : Branches Preorder where
  cons i _ _ := Or.imp (Above.cons i) (LeftOf.cons i)
  lt p q h := .inr (.of_lt p q h)

theorem branches_postorder : Branches Postorder where
  cons i _ _ := Or.imp (Above.cons i) (LeftOf.cons i)
  lt p q h := .inr (.of_lt p q h)

/-! ### Nodes at addresses -/

namespace Node

variable {n : Node} {R : List Nat → List Nat → Prop} {P Q : List Nat → Prop} {ns : List Node}

/-- At address `p` in the node stands a node of one of the kinds. -/
def HasKind (n : Node) (kinds : NodeKind → Bool) (p : List Nat) : Prop :=
  ∃ c, n.descend? p = some c ∧ kinds c.kind

@[simp] theorem descend?_nil (n : Node) : n.descend? [] = some n := rfl

theorem descend?_cons (n : Node) (i : Nat) (p : List Nat) :
    n.descend? (i :: p) = n.children[i]?.bind (·.descend? p) := rfl

@[simp] theorem hasKind_nil (n : Node) (kinds : NodeKind → Bool) :
    n.HasKind kinds [] ↔ kinds n.kind := by
  simp [HasKind]

theorem hasKind_cons (n : Node) (kinds : NodeKind → Bool) (i : Nat) (p : List Nat) :
    n.HasKind kinds (i :: p) ↔ ∃ c, n.children[i]? = some c ∧ c.HasKind kinds p := by
  simp only [HasKind, descend?_cons, Option.bind_eq_some_iff]
  constructor
  · rintro ⟨d, ⟨c, hc, hd⟩, hk⟩
    exact ⟨c, hc, d, hd, hk⟩
  · rintro ⟨c, hc, d, hd, hk⟩
    exact ⟨d, ⟨c, hc, hd⟩, hk⟩

/-- The nodes at the addresses with `P` are `ns`, each address once and in the order `R`. -/
def Arranged (n : Node) (R : List Nat → List Nat → Prop) (P : List Nat → Prop)
    (ns : List Node) : Prop :=
  ∃ ps : List (List Nat),
    ps.Pairwise R ∧ (∀ p, p ∈ ps ↔ P p) ∧ ns.map some = ps.map n.descend?

theorem Arranged.congr (h : n.Arranged R P ns) (hPQ : ∀ p, P p ↔ Q p) : n.Arranged R Q ns :=
  let ⟨ps, hps, hmem, hns⟩ := h
  ⟨ps, hps, fun p => (hmem p).trans (hPQ p), hns⟩

/-- Of an arranged list, the nodes of some kinds are arranged. -/
theorem Arranged.filter (h : n.Arranged R P ns) (kinds : NodeKind → Bool) :
    n.Arranged R (fun p => P p ∧ n.HasKind kinds p) (ns.filter (kinds ·.kind)) := by
  obtain ⟨ps, hps, hmem, hns⟩ := h
  let inKinds (n? : Option Node) : Bool := n?.any (kinds ·.kind)
  refine ⟨ps.filter (inKinds <| n.descend? ·), hps.filter _, fun p => ?_, ?_⟩
  · simp [inKinds, HasKind, hmem, Option.any_eq_true]
  · have : (ns.map some).filter inKinds = (ps.map n.descend?).filter inKinds := by rw [hns]
    simpa [List.filter_map, Function.comp_def, inKinds] using this

/-- A node alone is at the empty address. -/
theorem arranged_self (n : Node) (R : List Nat → List Nat → Prop) :
    n.Arranged R (· = []) [n] :=
  ⟨[[]], List.pairwise_singleton _ _, by simp, rfl⟩

theorem Arranged.append {ms : List Node} (hms : n.Arranged R P ms) (hns : n.Arranged R Q ns)
    (h : ∀ p q, P p → Q q → R p q) : n.Arranged R (fun p => P p ∨ Q p) (ms ++ ns) := by
  obtain ⟨ps, hps, hpmem, hpms⟩ := hms
  obtain ⟨qs, hqs, hqmem, hqns⟩ := hns
  refine ⟨ps ++ qs, List.pairwise_append.mpr ⟨hps, hqs, fun p hp q hq => ?_⟩, fun p => ?_, ?_⟩
  · exact h p q ((hpmem p).mp hp) ((hqmem q).mp hq)
  · rw [List.mem_append, hpmem, hqmem]
  · rw [List.map_append, List.map_append, hpms, hqns]

/-- Lists arranged in the children make one that is arranged in the node. -/
theorem arranged_children (hR : Branches R) {P : Node → List Nat → Prop} {out : Node → List Node}
    (h : ∀ c ∈ n.children, c.Arranged R (P c) (out c)) :
    n.Arranged R (fun p => ∃ i q c, p = i :: q ∧ n.children[i]? = some c ∧ P c q)
      (n.children.flatMap out) := by
  choose! addresses hpairs hmem hout using h
  have hchild : ∀ x ∈ n.children.zipIdx, n.children[x.2]? = some x.1 ∧ x.1 ∈ n.children :=
    fun x hx =>
      have hx := List.mem_zipIdx_iff_getElem?.mp hx
      ⟨hx, List.mem_of_getElem? hx⟩
  have hlt : n.children.zipIdx.Pairwise (·.2 < ·.2) := by
    rw [← List.pairwise_map (R := (· < ·)), List.zipIdx_map_snd]
    exact List.pairwise_lt_range'
  refine ⟨n.children.zipIdx.flatMap fun x => (addresses x.1).map (x.2 :: ·), ?_, fun p => ?_, ?_⟩
  · refine List.pairwise_flatMap.mpr ⟨fun x hx => ?_, hlt.imp fun hij p hp q hq => ?_⟩
    · exact List.pairwise_map.mpr ((hpairs x.1 (hchild x hx).2).imp (hR.cons x.2))
    · obtain ⟨p, -, rfl⟩ := List.mem_map.mp hp
      obtain ⟨q, -, rfl⟩ := List.mem_map.mp hq
      exact hR.lt p q hij
  · simp only [List.mem_flatMap, List.mem_map]
    constructor
    · rintro ⟨x, hx, q, hq, rfl⟩
      exact ⟨x.2, q, x.1, rfl, (hchild x hx).1, (hmem x.1 (hchild x hx).2 q).mp hq⟩
    · rintro ⟨i, q, c, rfl, hc, hq⟩
      exact ⟨(c, i), List.mem_zipIdx_iff_getElem?.mpr hc, q,
        (hmem c (List.mem_of_getElem? hc) q).mpr hq, rfl⟩
  · conv_lhs => rw [← List.zipIdx_map_fst 0 n.children, List.flatMap_map, List.map_flatMap]
    rw [List.map_flatMap]
    refine List.flatMap_congr fun x hx => ?_
    obtain ⟨hc, hmem⟩ := hchild x hx
    rw [hout x.1 hmem, List.map_map]
    refine List.map_congr_left fun q _ => ?_
    rw [Function.comp_apply, descend?_cons, hc, Option.bind_some]

/-! ### Both orders of all nodes -/

/-- A node and all nodes inside it, each after those inside it. -/
def postorder (n : Node) : List Node :=
  (n.children.attach.flatMap fun ⟨c, _⟩ => c.postorder) ++ [n]
termination_by n.count
decreasing_by exact count_lt_of_mem_children ‹_›

theorem postorder_eq (n : Node) : n.postorder = n.children.flatMap postorder ++ [n] := by
  rw [postorder]
  congr 1
  exact List.flatMap_subtype (fun _ _ => rfl) |>.trans (by rw [List.unattach_attach])

theorem hasKind_all_iff (n : Node) (p : List Nat) :
    n.HasKind (fun _ => true) p ↔
      p = [] ∨ ∃ i q c, p = i :: q ∧ n.children[i]? = some c ∧ c.HasKind (fun _ => true) q := by
  cases p with
  | nil => simp
  | cons i p =>
    rw [hasKind_cons]
    simp

/-- Enumeration lists the nodes at all addresses, in preorder. -/
theorem enumerate_arranged (n : Node) :
    n.Arranged Preorder (n.HasKind fun _ => true) n.enumerate := by
  induction n using Node.induction_children with
  | node n ih =>
    rw [enumerate_eq]
    refine Arranged.congr (((arranged_self n _).append (arranged_children branches_preorder ih) ?_))
      fun p => (hasKind_all_iff n p).symm
    rintro _ _ rfl ⟨i, q, c, rfl, -⟩
    exact .inl (above_nil_cons i q)

theorem postorder_arranged (n : Node) :
    n.Arranged Postorder (n.HasKind fun _ => true) n.postorder := by
  induction n using Node.induction_children with
  | node n ih =>
    rw [postorder_eq]
    refine ((arranged_children branches_postorder ih).append (arranged_self n _) ?_).congr
      fun p => (or_comm.trans (hasKind_all_iff n p).symm)
    rintro _ _ ⟨i, q, c, rfl, -⟩ rfl
    exact .inl (above_nil_cons i q)

end Node

end GraphQL
