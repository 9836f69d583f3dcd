import ServalMesh.Conf.Options
import ServalMesh.Overlay.Buffer

/-!
# The iterator

The iterator keeps the nodes above the current one on a stack of a fixed size. It visits the nodes
of a tree in pre-order, as long as the tree is not deeper than the stack.
-/

namespace ServalMesh.Conf

open Lib Overlay List

/-- The number of elements of `stack`. -/
def iteratorStack : ℕ := 20

/-- `struct cf_om_iterator`, with the top of the stack first. -/
structure CfOmIterator where
  node : Option CfOmNode
  stack : List (CfOmNode × ℕ)

def cfOmIterStart (root : Option CfOmNode) : CfOmIterator :=
  ⟨root, root.toList.map fun node => (node, 0)⟩

/-- The loop of `cf_om_iter_next`. -/
def iterLoop : List (CfOmNode × ℕ) → Except Abort CfOmIterator
  | [] => .ok ⟨none, []⟩
  | (parent, i) :: below =>
    match parent.nodv[i]? with
    | some child =>
      -- the check comes before `sp` is incremented
      if iteratorStack ≤ below.length then .ok ⟨some child, (parent, i + 1) :: below⟩
      else if iteratorStack ≤ below.length + 1 then .error .outOfBounds
      else .ok ⟨some child, (child, 0) :: (parent, i + 1) :: below⟩
    | none => if below = [] then .ok ⟨none, [(parent, i + 1)]⟩ else iterLoop below

def cfOmIterNext (it : CfOmIterator) : Except Abort CfOmIterator :=
  match it.node with
  | none => .ok it
  | some _ => iterLoop it.stack

/-- The loop of `cf_om_save`, as the nodes it visits. -/
def visitLoop : ℕ → CfOmIterator → Except Abort (List CfOmNode)
  | 0, _ => .error .endless
  | fuel + 1, it =>
    match it.node with
    | none => .ok []
    | some node =>
      match cfOmIterNext it with
      | .error e => .error e
      | .ok it =>
        match visitLoop fuel it with
        | .error e => .error e
        | .ok nodes => .ok (node :: nodes)

section Preorder

mutual

/-- A node and those below it, with their paths. -/
def preorder (path : List Key) : CfOmNode → List (List Key × CfOmNode)
  | ⟨fullkey, key, text, nodv⟩ => (path, ⟨fullkey, key, text, nodv⟩) :: preorderAll path nodv

def preorderAll (path : List Key) : List CfOmNode → List (List Key × CfOmNode)
  | [] => []
  | child :: nodv => preorder (path ++ [child.key]) child ++ preorderAll path nodv

end

theorem preorder_eq (path : List Key) (node : CfOmNode) :
    preorder path node = (path, node) :: preorderAll path node.nodv := by
  cases node
  rw [preorder]

/-- The nodes of a tree that may not be allocated. -/
def rootNodes (root : Option CfOmNode) : List (List Key × CfOmNode) :=
  root.toList.flatMap (preorder [])

theorem nodeAt_cons_eq_some {node n : CfOmNode} {full : Key} {rest : List Key}
    (h : node.nodeAt (full :: rest) = some n) :
    ∃ child ∈ node.nodv, child.key = full ∧ child.nodeAt rest = some n := by
  rw [CfOmNode.nodeAt, Option.bind_eq_some_iff] at h
  obtain ⟨child, found, at_rest⟩ := h
  have same := find?_some found
  exact ⟨child, mem_of_find?_eq_some found, of_decide_eq_true same, at_rest⟩

mutual

/-- The nodes that are visited are those of the tree. -/
theorem mem_preorder (path : List Key) : ∀ {node : CfOmNode}, Sorted node →
    ∀ {path' : List Key} {n : CfOmNode}, (path', n) ∈ preorder path node ↔
      ∃ rest, path' = path ++ rest ∧ node.nodeAt rest = some n
  | ⟨fullkey, key, text, nodv⟩, sorted, path', n => by
    rw [preorder, mem_cons, Prod.mk.injEq, mem_preorderAll path sorted.child]
    constructor
    · rintro (⟨rfl, rfl⟩ | ⟨child, hc, rest, rfl, at_rest⟩)
      · exact ⟨[], by simp, rfl⟩
      · refine ⟨child.key :: rest, by simp, ?_⟩
        rwa [sorted.nodeAt_child hc]
    · rintro ⟨rest, rfl, at_rest⟩
      cases rest with
      | nil =>
        cases at_rest
        exact .inl ⟨by simp, rfl⟩
      | cons full rest =>
        obtain ⟨child, hc, rfl, at_child⟩ := nodeAt_cons_eq_some at_rest
        exact .inr ⟨child, hc, rest, by simp, at_child⟩

theorem mem_preorderAll (path : List Key) : ∀ {nodv : List CfOmNode},
    (∀ child ∈ nodv, Sorted child) →
    ∀ {path' : List Key} {n : CfOmNode}, (path', n) ∈ preorderAll path nodv ↔
      ∃ child ∈ nodv, ∃ rest, path' = path ++ child.key :: rest ∧ child.nodeAt rest = some n
  | [], _, path', n => by simp [preorderAll]
  | child :: nodv, sorted, path', n => by
    rw [preorderAll, mem_append, mem_preorder _ (sorted child (by simp)),
      mem_preorderAll path fun c hc => sorted c (by simp [hc])]
    simp

end

mutual

/-- Every node is visited once. -/
theorem nodup_preorder (path : List Key) : ∀ {node : CfOmNode}, Sorted node →
    ((preorder path node).map Prod.fst).Nodup
  | ⟨fullkey, key, text, nodv⟩, sorted => by
    rw [preorder, map_cons, nodup_cons]
    refine ⟨?_, nodup_preorderAll path sorted.order sorted.child⟩
    intro again
    obtain ⟨⟨path', n⟩, hn, same⟩ := mem_map.1 again
    obtain ⟨child, _, rest, longer, _⟩ := (mem_preorderAll path sorted.child).1 hn
    have lengths := congrArg List.length (same.symm.trans longer)
    simp at lengths

theorem nodup_preorderAll (path : List Key) : ∀ {nodv : List CfOmNode},
    nodv.Pairwise (fun a b => keyCode a.key < keyCode b.key) → (∀ child ∈ nodv, Sorted child) →
      ((preorderAll path nodv).map Prod.fst).Nodup
  | [], _, _ => by simp [preorderAll]
  | child :: nodv, order, sorted => by
    have others : ∀ c ∈ nodv, Sorted c := fun c hc => sorted c (by simp [hc])
    rw [preorderAll, map_append, nodup_append]
    refine ⟨nodup_preorder _ (sorted child (by simp)),
      nodup_preorderAll path (pairwise_cons.1 order).2 others, ?_⟩
    intro p hp q hq same
    obtain ⟨⟨_, n⟩, hn, rfl⟩ := mem_map.1 hp
    obtain ⟨⟨_, m⟩, hm, rfl⟩ := mem_map.1 hq
    obtain ⟨rest, below_child, _⟩ := (mem_preorder _ (sorted child (by simp))).1 hn
    obtain ⟨other, hc, rest', below_other, _⟩ := (mem_preorderAll path others).1 hm
    have keys : child.key = other.key := by
      have equal : path ++ child.key :: rest = path ++ other.key :: rest' := by
        rw [← below_other, ← show path ++ [child.key] ++ rest = path ++ child.key :: rest by simp,
          ← below_child]
        exact same
      exact (List.cons.inj (append_cancel_left equal)).1
    have lt := (pairwise_cons.1 order).1 other hc
    rw [keys] at lt
    exact lt_irrefl _ lt

end

end Preorder

section Visits

/-- The path of the node on top of the stack. -/
def stackPath : List (CfOmNode × ℕ) → List Key
  | [] => []
  | [_] => []
  | (node, _) :: below => stackPath below ++ [node.key]

/-- The nodes that are still to be visited. -/
def pending : List (CfOmNode × ℕ) → List (List Key × CfOmNode)
  | [] => []
  | (parent, i) :: below =>
    preorderAll (stackPath ((parent, i) :: below)) (parent.nodv.drop i) ++ pending below

theorem stackPath_index (parent : CfOmNode) (i j : ℕ) (below : List (CfOmNode × ℕ)) :
    stackPath ((parent, i) :: below) = stackPath ((parent, j) :: below) := by
  cases below <;> rfl

theorem length_stackPath (stack : List (CfOmNode × ℕ)) :
    (stackPath stack).length = stack.length - 1 := by
  induction stack with
  | nil => rfl
  | cons top below ih =>
    cases below with
    | nil => rfl
    | cons next below =>
      rw [stackPath, length_append, ih] <;> simp

/-- What the next call does. -/
theorem iterLoop_spec {stack : List (CfOmNode × ℕ)} (nonempty : stack ≠ [])
    (bound : stack.length ≤ iteratorStack) :
    (pending stack = [] ∧ ∃ stack', iterLoop stack = .ok ⟨none, stack'⟩) ∨
      ∃ path node rest, pending stack = (path, node) :: rest ∧
        (iteratorStack ≤ path.length ∧ iterLoop stack = .error .outOfBounds ∨
          path.length < iteratorStack ∧ ∃ stack', iterLoop stack = .ok ⟨some node, stack'⟩ ∧
            pending stack' = rest ∧ stack' ≠ [] ∧ stack'.length ≤ iteratorStack) := by
  induction stack with
  | nil => exact absurd rfl nonempty
  | cons top below ih =>
    obtain ⟨parent, i⟩ := top
    rw [length_cons] at bound
    cases hchild : parent.nodv[i]? with
    | none =>
      have rest_empty : parent.nodv.drop i = [] :=
        drop_eq_nil_of_le (getElem?_eq_none_iff.1 hchild)
      by_cases hbelow : below = []
      · subst hbelow
        refine .inl ⟨?_, [(parent, i + 1)], ?_⟩
        · simp [pending, rest_empty, preorderAll]
        · simp [iterLoop, hchild]
      have loop : iterLoop ((parent, i) :: below) = iterLoop below := by
        simp [iterLoop, hchild, hbelow]
      have same : pending ((parent, i) :: below) = pending below := by
        simp [pending, rest_empty, preorderAll]
      rw [loop, same]
      exact ih hbelow (by omega)
    | some child =>
      obtain ⟨lt, hchild'⟩ := List.getElem?_eq_some_iff.1 hchild
      have drop : parent.nodv.drop i = child :: parent.nodv.drop (i + 1) := by
        rw [List.drop_eq_getElem_cons lt, hchild']
      have path_length : (stackPath ((parent, i) :: below) ++ [child.key]).length =
          below.length + 1 := by
        rw [length_append, length_stackPath]
        simp
      refine .inr ⟨stackPath ((parent, i) :: below) ++ [child.key], child,
        preorderAll (stackPath ((parent, i) :: below) ++ [child.key]) child.nodv ++
          (preorderAll (stackPath ((parent, i) :: below)) (parent.nodv.drop (i + 1)) ++
            pending below), ?_, ?_⟩
      · rw [pending, drop, preorderAll, preorder_eq]
        simp
      rw [path_length]
      by_cases full : iteratorStack ≤ below.length + 1
      · refine .inl ⟨full, ?_⟩
        simp [iterLoop, hchild, full, show ¬iteratorStack ≤ below.length by omega]
      refine .inr ⟨by omega, (child, 0) :: (parent, i + 1) :: below, ?_, ?_, by simp, ?_⟩
      · simp [iterLoop, hchild, full, show ¬iteratorStack ≤ below.length by omega]
      · rw [pending, pending, stackPath_index parent (i + 1) i, stackPath,
          stackPath_index parent (i + 1) i] <;> simp
      · simp
        omega

/-- The nodes are visited in pre-order until one is too deep for the stack. -/
theorem visitLoop_spec {node : CfOmNode} {stack : List (CfOmNode × ℕ)} {fuel : ℕ}
    (nonempty : stack ≠ []) (bound : stack.length ≤ iteratorStack)
    (hfuel : (pending stack).length + 1 < fuel) :
    visitLoop fuel ⟨some node, stack⟩ =
      if ∀ entry ∈ pending stack, entry.1.length < iteratorStack then
        .ok (node :: (pending stack).map Prod.snd)
      else .error .outOfBounds := by
  obtain ⟨fuel, rfl⟩ : ∃ n, fuel = n + 2 := ⟨fuel - 2, by omega⟩
  induction hpending : pending stack generalizing node stack fuel with
  | nil =>
    rcases iterLoop_spec nonempty bound with ⟨_, stack', next⟩ | ⟨_, _, _, more, _⟩
    · simp [visitLoop, cfOmIterNext, next]
    · cases hpending.symm.trans more
  | cons entry rest ih =>
    rcases iterLoop_spec nonempty bound with ⟨none_left, _⟩ | ⟨path, node', rest', more, step⟩
    · cases hpending.symm.trans none_left
    rw [hpending] at more hfuel
    cases more
    rcases step with ⟨deep, next⟩ | ⟨fits, stack', next, pending', nonempty', bound'⟩
    · rw [if_neg (by simp [deep])]
      simp [visitLoop, cfOmIterNext, next]
    obtain ⟨fuel, rfl⟩ : ∃ n, fuel = n + 1 := ⟨fuel - 1, by simp at hfuel; omega⟩
    have visits := @ih node' stack' nonempty' bound' fuel
      (by rw [pending']; simp at hfuel; omega) pending'
    rw [visitLoop, cfOmIterNext, next]
    dsimp only
    rw [visits]
    by_cases all : ∀ entry ∈ rest, entry.1.length < iteratorStack
    · have all' : ∀ entry ∈ (path, node') :: rest, entry.1.length < iteratorStack :=
        forall_mem_cons.2 ⟨fits, all⟩
      rw [if_pos all, if_pos all']
      rfl
    · rw [if_neg all, if_neg fun h => all (forall_mem_cons.1 h).2]

/-- The nodes that the loop of `cf_om_save` visits. -/
def visitNodes (root : Option CfOmNode) : Except Abort (List CfOmNode) :=
  visitLoop ((rootNodes root).length + 1) (cfOmIterStart root)

theorem visitNodes_eq (root : Option CfOmNode) :
    visitNodes root =
      if ∀ entry ∈ rootNodes root, entry.1.length < iteratorStack then
        .ok ((rootNodes root).map Prod.snd)
      else .error .outOfBounds := by
  cases root with
  | none => rfl
  | some node =>
    have nodes : rootNodes (some node) = ([], node) :: pending [(node, 0)] := by
      simp [rootNodes, preorder_eq, pending, stackPath]
    have enough : (pending [(node, 0)]).length + 1 < (rootNodes (some node)).length + 1 := by
      rw [nodes]
      exact Nat.lt_succ_self _
    have visits : visitNodes (some node) = _ :=
      @visitLoop_spec node [(node, 0)] _ (by simp) (by simp [iteratorStack]) enough
    have depths : (∀ entry ∈ rootNodes (some node), entry.1.length < iteratorStack) ↔
        ∀ entry ∈ pending [(node, 0)], entry.1.length < iteratorStack := by
      rw [nodes, forall_mem_cons]
      exact and_iff_right (by simp [iteratorStack])
    rw [visits]
    by_cases all : ∀ entry ∈ pending [(node, 0)], entry.1.length < iteratorStack
    · rw [if_pos all, if_pos (depths.2 all), nodes]
      rfl
    · rw [if_neg all, if_neg (mt depths.1 all)]

end Visits

end ServalMesh.Conf
