import GraphQL.Proofs.Traversal.Address
import GraphQL.Traversal.Folder
import GraphQL.Traversal.Visitor

/-!
# Visitors, folders and enumeration agree

A visitor and a folder go down as far as a node has nodes inside it, so the depth they work with is
never used up (`Visitor.visit_eq`, `Folder.fold_eq`): a node with a handler is left to it, with the
walk over its children at hand, and a node without one is walked.

The visitors here log the nodes of some kinds, before their walk, after it or in its place.  The
first log is the enumeration, the second is postorder, and the third has the nodes with none of the
kinds around them.  A folder that takes a step at the same nodes takes them in the order of the
enumeration, and does what a visitor with the same handlers does (`traversals_agree`).
-/

namespace GraphQL

section Loops

variable {α σ : Type}

theorem forM_congr_mem {m : Type → Type} [Monad m] {as : List α} {f g : α → m PUnit}
    (h : ∀ a ∈ as, f a = g a) : as.forM f = as.forM g := by
  induction as with
  | nil => rfl
  | cons a as ih =>
    obtain ⟨ha, has⟩ := List.forall_mem_cons.mp h
    simp only [List.forM_eq_forM, List.forM_cons] at ih ⊢
    rw [ha, ih has]

theorem run_then {x y : StateM σ PUnit} {s s' : σ} (h : x.run s = (⟨⟩, s')) :
    (do x; y).run s = y.run s' := by
  rw [StateT.run_bind, h]
  rfl

/-- Actions that take a state to the next, one after the other. -/
theorem run_forM {as : List α} {act : α → StateM σ PUnit} {next : σ → α → σ}
    (h : ∀ a ∈ as, ∀ s, (act a).run s = (⟨⟩, next s a)) (s : σ) :
    (as.forM act).run s = (⟨⟩, as.foldl next s) := by
  induction as generalizing s with
  | nil => rfl
  | cons a as ih =>
    obtain ⟨ha, has⟩ := List.forall_mem_cons.mp h
    rw [List.forM_eq_forM, List.forM_cons, run_then (ha s), List.foldl_cons]
    exact ih has (next s a)

end Loops

/-! ### What happens at one node -/

namespace Visitor

variable {m : Type → Type} [Monad m]

/-- Visits the children of a node. -/
def walk (v : Visitor m) (n : Node) : m PUnit := n.children.forM v.visit

theorem visitWithin_congr (v : Visitor m) {d d' : Nat} {n : Node} (h : n.count ≤ d)
    (h' : n.count ≤ d') : v.visitWithin d n = v.visitWithin d' n := by
  have hn := n.count_eq
  induction d generalizing d' n with
  | zero => omega
  | succ d ih =>
    obtain _ | d' := d'
    · omega
    · simp only [visitWithin]
      rw [forM_congr_mem fun c hc => ?_]
      have := Node.count_lt_of_mem_children hc
      exact ih (by omega) (by omega) c.count_eq

/-- A node is left to the handler of its kind, or else walked. -/
theorem visit_eq (v : Visitor m) (n : Node) :
    v.visit n = match v.handler? n.kind with
      | some handler => handler n (v.walk n)
      | none => v.walk n := by
  have hwalk : n.children.forM (v.visitWithin (totalCount Node.count n.children)) = v.walk n :=
    forM_congr_mem fun c hc => v.visitWithin_congr (le_totalCount_of_mem _ hc) Nat.le.refl
  have hvisit : v.visit n = v.visitWithin (totalCount Node.count n.children + 1) n := by
    rw [visit, n.count_eq, Nat.add_comm]
  rw [← hwalk]
  exact hvisit

/-- The visitor that handles the nodes of some kinds and walks the others. -/
def atKinds (kinds : NodeKind → Bool) (handler : Node → m PUnit → m PUnit) : Visitor m where
  handler? k := if kinds k then some handler else none

theorem visit_atKinds (kinds : NodeKind → Bool) (handler : Node → m PUnit → m PUnit) (n : Node) :
    (atKinds kinds handler).visit n =
      if kinds n.kind then handler n ((atKinds kinds handler).walk n)
      else (atKinds kinds handler).walk n := by
  rw [visit_eq]
  by_cases h : kinds n.kind <;> simp [atKinds, h]

end Visitor

namespace Folder

variable {α : Type}

/-- Folds the children of a node. -/
def walk (f : Folder α) (n : Node) (acc : α) : α :=
  n.children.foldl (fun acc c => f.fold c acc) acc

theorem foldWithin_congr (f : Folder α) {d d' : Nat} {n : Node} (h : n.count ≤ d)
    (h' : n.count ≤ d') : f.foldWithin d n = f.foldWithin d' n := by
  have hn := n.count_eq
  induction d generalizing d' n with
  | zero => omega
  | succ d ih =>
    obtain _ | d' := d'
    · omega
    · have hwalk : ∀ acc, n.children.foldl (fun acc c => f.foldWithin d c acc) acc =
          n.children.foldl (fun acc c => f.foldWithin d' c acc) acc := by
        refine fun acc => List.foldl_ext _ _ acc fun a c hc => ?_
        have := Node.count_lt_of_mem_children hc
        have hc : f.foldWithin d c = f.foldWithin d' c :=
          ih (by omega) (by omega) c.count_eq
        rw [hc]
      funext acc
      simp only [foldWithin, hwalk]

/-- The value is left to the handler of the node's kind, or else goes through the children. -/
theorem fold_eq (f : Folder α) (n : Node) (acc : α) :
    f.fold n acc = match f.handler? n.kind with
      | some handler => handler n (f.walk n) acc
      | none => f.walk n acc := by
  have hwalk : (fun acc => n.children.foldl
      (fun acc c => f.foldWithin (totalCount Node.count n.children) c acc) acc) = f.walk n := by
    refine funext fun acc => List.foldl_ext _ _ acc fun a c hc => ?_
    rw [fold, f.foldWithin_congr (le_totalCount_of_mem _ hc) Nat.le.refl]
  have hfold : f.fold n acc = f.foldWithin (totalCount Node.count n.children + 1) n acc := by
    rw [fold, n.count_eq, Nat.add_comm]
  rw [← hwalk]
  exact hfold

end Folder

/-! ### Logging -/

/-- Adds a node to the log. -/
def logNode (n : Node) : StateM (List Node) PUnit := modify (· ++ [n])

@[simp] theorem run_logNode (n : Node) (log : List Node) :
    (logNode n).run log = (⟨⟩, log ++ [n]) := rfl

/-- A node if it is of one of the kinds, and else the outermost such nodes inside it. -/
def Node.outermost (kinds : NodeKind → Bool) (n : Node) : List Node :=
  if kinds n.kind then [n]
  else n.children.attach.flatMap fun ⟨c, _⟩ => c.outermost kinds
termination_by n.count
decreasing_by exact count_lt_of_mem_children ‹_›

theorem Node.outermost_eq (kinds : NodeKind → Bool) (n : Node) :
    n.outermost kinds =
      if kinds n.kind then [n] else n.children.flatMap (outermost kinds) := by
  rw [outermost]
  congr 1
  exact List.flatMap_subtype (fun _ _ => rfl) |>.trans (by rw [List.unattach_attach])

namespace Visitor

variable (kinds : NodeKind → Bool)

/-- Logs the nodes of some kinds, each before its walk. -/
def logBefore : Visitor (StateM (List Node)) :=
  atKinds kinds fun n walk => do logNode n; walk

/-- Logs the nodes of some kinds, each after its walk. -/
def logAfter : Visitor (StateM (List Node)) :=
  atKinds kinds fun n walk => do walk; logNode n

/-- Logs the nodes of some kinds in place of walking them. -/
def logOnly : Visitor (StateM (List Node)) :=
  atKinds kinds fun n _ => logNode n

/-- A walk logs what is logged for the children. -/
theorem run_walk {v : Visitor (StateM (List Node))} {out : Node → List Node} {n : Node}
    (h : ∀ c ∈ n.children, ∀ log, (v.visit c).run log = (⟨⟩, log ++ out c)) (log : List Node) :
    (v.walk n).run log = (⟨⟩, log ++ n.children.flatMap out) := by
  rw [walk, run_forM h, List.foldl_append_eq_append, List.flatMap_def]

theorem run_logBefore (n : Node) (log : List Node) :
    ((logBefore kinds).visit n).run log = (⟨⟩, log ++ n.enumerate.filter (kinds ·.kind)) := by
  induction n using Node.induction_children generalizing log with
  | node n ih =>
    have hwalk := run_walk ih
    rw [n.enumerate_eq, logBefore, visit_atKinds, ← logBefore]
    split
    case isTrue h => simp [run_then (run_logNode n log), hwalk, h, List.filter_flatMap]
    case isFalse h => simp [hwalk, h, List.filter_flatMap]

theorem run_logAfter (n : Node) (log : List Node) :
    ((logAfter kinds).visit n).run log = (⟨⟩, log ++ n.postorder.filter (kinds ·.kind)) := by
  induction n using Node.induction_children generalizing log with
  | node n ih =>
    have hwalk := run_walk ih
    rw [n.postorder_eq, logAfter, visit_atKinds, ← logAfter]
    split
    case isTrue h => simp [run_then (hwalk log), h, List.filter_flatMap]
    case isFalse h => simp [hwalk, h, List.filter_flatMap]

theorem run_logOnly (n : Node) (log : List Node) :
    ((logOnly kinds).visit n).run log = (⟨⟩, log ++ n.outermost kinds) := by
  induction n using Node.induction_children generalizing log with
  | node n ih =>
    have hwalk := run_walk ih
    rw [n.outermost_eq, logOnly, visit_atKinds, ← logOnly]
    split
    case isTrue h => exact run_logNode n log
    case isFalse h => exact hwalk log

end Visitor

/-! ### Outermost nodes -/

namespace Node

variable {kinds : NodeKind → Bool}

/-- At address `p` stands a node of one of the kinds, and around it none. -/
def IsOutermost (n : Node) (kinds : NodeKind → Bool) (p : List Nat) : Prop :=
  n.HasKind kinds p ∧ ∀ q, Above q p → ¬ n.HasKind kinds q

theorem isOutermost_iff_of_kind {n : Node} (h : kinds n.kind) (p : List Nat) :
    n.IsOutermost kinds p ↔ p = [] := by
  constructor
  · rintro ⟨-, habove⟩
    cases p with
    | nil => rfl
    | cons i p => exact absurd ((hasKind_nil n kinds).mpr h) (habove [] (above_nil_cons i p))
  · rintro rfl
    exact ⟨(hasKind_nil n kinds).mpr h, fun q hq => absurd hq (not_above_nil q)⟩

theorem isOutermost_iff_of_not_kind {n : Node} (h : ¬ kinds n.kind) (p : List Nat) :
    n.IsOutermost kinds p ↔
      ∃ i q c, p = i :: q ∧ n.children[i]? = some c ∧ c.IsOutermost kinds q := by
  cases p with
  | nil => simp [IsOutermost, h]
  | cons i p =>
    simp only [IsOutermost, hasKind_cons, above_cons_iff]
    constructor
    · rintro ⟨⟨c, hc, hp⟩, habove⟩
      refine ⟨i, p, c, rfl, hc, hp, fun q hq hk => ?_⟩
      exact habove (i :: q) (.inr ⟨q, rfl, hq⟩) ((hasKind_cons n kinds i q).mpr ⟨c, hc, hk⟩)
    · rintro ⟨_, _, c, ⟨rfl, rfl⟩, hc, hp, habove⟩
      refine ⟨⟨c, hc, hp⟩, ?_⟩
      rintro _ (rfl | ⟨q, rfl, hq⟩) hk
      · exact h ((hasKind_nil n kinds).mp hk)
      · obtain ⟨d, hd, hk⟩ := (hasKind_cons n kinds i q).mp hk
        obtain rfl := Option.some.inj (hd.symm.trans hc)
        exact habove q hq hk

theorem outermost_arranged (kinds : NodeKind → Bool) (n : Node) :
    n.Arranged Preorder (n.IsOutermost kinds) (n.outermost kinds) := by
  induction n using Node.induction_children with
  | node n ih =>
    rw [outermost_eq]
    split
    case isTrue h =>
      exact (arranged_self n _).congr fun p => (isOutermost_iff_of_kind h p).symm
    case isFalse h =>
      exact (arranged_children branches_preorder ih).congr
        fun p => (isOutermost_iff_of_not_kind h p).symm

end Node

/-! ### Folding -/

namespace Folder

variable {α : Type}

/-- Takes a step at the nodes of some kinds, each before its walk. -/
def stepBefore (kinds : NodeKind → Bool) (step : α → Node → α) : Folder α where
  handler? k := if kinds k then some fun n walk acc => walk (step acc n) else none

theorem fold_stepBefore (kinds : NodeKind → Bool) (step : α → Node → α) (n : Node) (acc : α) :
    (stepBefore kinds step).fold n acc = (n.enumerate.filter (kinds ·.kind)).foldl step acc := by
  induction n using Node.induction_children generalizing acc with
  | node n ih =>
    have hwalk : ∀ acc, (stepBefore kinds step).walk n acc =
        ((n.children.flatMap Node.enumerate).filter (kinds ·.kind)).foldl step acc := by
      intro acc
      rw [List.filter_flatMap, List.foldl_flatMap]
      exact List.foldl_ext _ _ acc fun acc c hc => ih c hc acc
    rw [fold_eq, n.enumerate_eq]
    by_cases h : kinds n.kind <;> simp [stepBefore, h, ← hwalk]

end Folder

/-- The visitor and the folder have handlers for the same kinds, and these take a value alike when
their walks do. -/
def Corresponds {α : Type} (v : Visitor (StateM α)) (f : Folder α) : Prop :=
  ∀ k, Option.Rel (fun handler handler' => ∀ n (walk : StateM α PUnit) (walk' : α → α),
    (∀ acc, walk.run acc = (⟨⟩, walk' acc)) →
      ∀ acc, (handler n walk).run acc = (⟨⟩, handler' n walk' acc)) (v.handler? k) (f.handler? k)

theorem Corresponds.run_visit {α : Type} {v : Visitor (StateM α)} {f : Folder α}
    (h : Corresponds v f) (n : Node) (acc : α) : (v.visit n).run acc = (⟨⟩, f.fold n acc) := by
  induction n using Node.induction_children generalizing acc with
  | node n ih =>
    have hwalk : ∀ acc, (v.walk n).run acc = (⟨⟩, f.walk n acc) := run_forM ih
    rw [v.visit_eq, f.fold_eq]
    have hk := h n.kind
    revert hk
    cases v.handler? n.kind <;> cases f.handler? n.kind <;> intro hk <;> cases hk
    case none.none => exact hwalk acc
    case some.some handler handler' hk => exact hk n _ _ hwalk acc

/-! ### The traversals together -/

/-- **The traversals agree.**  Enumeration is preorder; the log of some kinds is what enumeration
lists of them when they are logged before the walk, postorder when they are logged after, and the
outermost ones when they are not walked.  A folder takes its steps in the order of enumeration, and
ends where a visitor with the same handlers does. -/
theorem traversals_agree (n : Node) (kinds : NodeKind → Bool) :
    n.Arranged Preorder (n.HasKind fun _ => true) n.enumerate ∧
    (∀ log, ((Visitor.logBefore kinds).visit n).run log =
      (⟨⟩, log ++ n.enumerate.filter (kinds ·.kind))) ∧
    (∃ ns, n.Arranged Postorder (n.HasKind kinds) ns ∧
      ∀ log, ((Visitor.logAfter kinds).visit n).run log = (⟨⟩, log ++ ns)) ∧
    (∃ ns, n.Arranged Preorder (n.IsOutermost kinds) ns ∧
      ∀ log, ((Visitor.logOnly kinds).visit n).run log = (⟨⟩, log ++ ns)) ∧
    (∀ {α : Type} (step : α → Node → α) (seed : α), (Folder.stepBefore kinds step).fold n seed =
      (n.enumerate.filter (kinds ·.kind)).foldl step seed) ∧
    ∀ {α : Type} (v : Visitor (StateM α)) (f : Folder α), Corresponds v f →
      ∀ seed, (v.visit n).run seed = (⟨⟩, f.fold n seed) := by
  refine ⟨n.enumerate_arranged, Visitor.run_logBefore kinds n,
    ⟨_, (n.postorder_arranged.filter kinds).congr fun p => and_iff_right_of_imp ?_,
      Visitor.run_logAfter kinds n⟩,
    ⟨_, n.outermost_arranged kinds, Visitor.run_logOnly kinds n⟩,
    fun step => Folder.fold_stepBefore kinds step n, fun v f h => h.run_visit n⟩
  rintro ⟨c, hc, -⟩
  exact ⟨c, hc, rfl⟩

/-- Logging the numbers of a list of lists, and the lists after what they hold. -/
theorem traversals_agree_list :
    let n : Node := .value (.list [.list [.int "1" 2, .null 4] 1, .int "2" 10] 0)
    let kinds : NodeKind → Bool := (· ∈ [.listValue, .intValue])
    let f : Folder (List Node) := ⟨fun k =>
      if kinds k then some fun n walk log => walk log ++ [n] else none⟩
    ((Visitor.logAfter kinds).visit n).run [] = (⟨⟩, f.fold n []) ∧
      (f.fold n []).map Node.start = [2, 1, 10, 0] := by
  intro n kinds f
  have h : Corresponds (Visitor.logAfter kinds) f := by
    intro k
    simp only [Visitor.logAfter, Visitor.atKinds, f]
    split
    · exact .some fun n walk walk' hwalk log => by rw [run_then (hwalk log), run_logNode]
    · exact .none
  exact ⟨(traversals_agree n kinds).2.2.2.2.2 _ f h [], by decide⟩

end GraphQL
