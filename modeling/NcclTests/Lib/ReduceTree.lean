import Mathlib

/-!
# Reductions of any shape and order

A reduction combines the contributions at its leaves pairwise. Its shape is a
binary tree and its order is the order of the leaves. `ReduceTree.eval_round`:
when the exact result over every block of consecutive leaves is left unchanged
by rounding, a tree whose nodes round yields the exact result.

`ReduceTree.eval_perm`: an operation that is commutative and associative on the
contributions yields one result for all shapes and orders. `commutesOn_pick` has
those that pick one of two contributions by comparing a key.
-/

/-- The shape of a reduction, with contributors at the leaves. -/
inductive ReduceTree (α : Type*)
  | leaf (a : α)
  | node (left right : ReduceTree α)

namespace ReduceTree

variable {α β : Type*}

/-- The contributors from left to right. -/
def leaves : ReduceTree α → List α
  | leaf a => [a]
  | node left right => left.leaves ++ right.leaves

/-- Evaluate with `op` at every inner node. -/
def eval (op : β → β → β) (f : α → β) : ReduceTree α → β
  | leaf a => f a
  | node left right => op (left.eval op f) (right.eval op f)

/-- Rounding at the inner nodes changes nothing when the exact value `total` of
every block of consecutive leaves is a fixed point of the rounding. -/
theorem eval_round {op : β → β → β} {f : α → β} {round : β → β} (total : List α → β)
    (single : ∀ a, total [a] = f a)
    (append : ∀ xs ys, total (xs ++ ys) = op (total xs) (total ys))
    (t : ReduceTree α) (exact : ∀ xs, xs <:+: t.leaves → round (total xs) = total xs) :
    t.eval (fun a b => round (op a b)) f = total t.leaves := by
  induction t with
  | leaf a => exact (single a).symm
  | node left right ihLeft ihRight =>
    have leftExact := ihLeft fun xs infix_ =>
      exact xs (infix_.trans (List.prefix_append _ _).isInfix)
    have rightExact := ihRight fun xs infix_ =>
      exact xs (infix_.trans (List.suffix_append _ _).isInfix)
    rw [eval, leftExact, rightExact, ← append]
    exact exact _ List.infix_rfl

/-- Sums: it suffices that the sum over every subset of the leaves is a fixed
point of the rounding. -/
theorem eval_round_add [AddCommMonoid β] [DecidableEq α] {f : α → β} {round : β → β}
    {s : Finset α} (t : ReduceTree α) (nodup : t.leaves.Nodup)
    (cover : t.leaves.toFinset = s)
    (exact : ∀ u ⊆ s, round (∑ a ∈ u, f a) = ∑ a ∈ u, f a) :
    t.eval (fun a b => round (a + b)) f = ∑ a ∈ s, f a := by
  rw [eval_round (fun xs => (xs.map f).sum) (by simp) (by simp) t ?_,
    ← List.sum_toFinset _ nodup, cover]
  intro xs block
  rw [← List.sum_toFinset _ (nodup.sublist block.sublist)]
  refine exact _ ?_
  rw [← cover]
  intro a mem
  exact List.mem_toFinset.2 (block.subset (List.mem_toFinset.1 mem))

/-- Products: it suffices that the product over every subset of the leaves is a
fixed point of the rounding. -/
theorem eval_round_mul [CommMonoid β] [DecidableEq α] {f : α → β} {round : β → β}
    {s : Finset α} (t : ReduceTree α) (nodup : t.leaves.Nodup)
    (cover : t.leaves.toFinset = s)
    (exact : ∀ u ⊆ s, round (∏ a ∈ u, f a) = ∏ a ∈ u, f a) :
    t.eval (fun a b => round (a * b)) f = ∏ a ∈ s, f a := by
  rw [eval_round (fun xs => (xs.map f).prod) (by simp) (by simp) t ?_,
    ← List.prod_toFinset _ nodup, cover]
  intro xs block
  rw [← List.prod_toFinset _ (nodup.sublist block.sublist)]
  refine exact _ ?_
  rw [← cover]
  intro a mem
  exact List.mem_toFinset.2 (block.subset (List.mem_toFinset.1 mem))

/-! ## Any shape and order -/

/-- An operation on the set that is commutative and associative there. -/
structure CommutesOn (op : β → β → β) (S : Set β) : Prop where
  closed : ∀ x ∈ S, ∀ y ∈ S, op x y ∈ S
  comm : ∀ x ∈ S, ∀ y ∈ S, op x y = op y x
  assoc : ∀ x ∈ S, ∀ y ∈ S, ∀ z ∈ S, op (op x y) z = op x (op y z)

theorem CommutesOn.congr {op op' : β → β → β} {S : Set β} (commutes : CommutesOn op S)
    (same : ∀ x ∈ S, ∀ y ∈ S, op' x y = op x y) : CommutesOn op' S where
  closed x x_in y y_in := by
    rw [same x x_in y y_in]
    exact commutes.closed x x_in y y_in
  comm x x_in y y_in := by
    rw [same x x_in y y_in, same y y_in x x_in]
    exact commutes.comm x x_in y y_in
  assoc x x_in y y_in z z_in := by
    rw [same x x_in y y_in, same y y_in z z_in, same _ (commutes.closed x x_in y y_in) z z_in,
      same x x_in _ (commutes.closed y y_in z z_in)]
    exact commutes.assoc x x_in y y_in z z_in

/-- With a unit added, a reduction is a product. -/
theorem coe_eval_mul [CommSemigroup β] (f : α → β) (t : ReduceTree α) :
    ((t.eval (· * ·) f : β) : WithOne β) = (t.leaves.map fun a => (f a : WithOne β)).prod := by
  induction t with
  | leaf a => simp [eval, leaves]
  | node left right ihLeft ihRight =>
    rw [eval, leaves, List.map_append, List.prod_append, ← ihLeft, ← ihRight]
    exact WithOne.coe_mul _ _

theorem eval_mul_perm [CommSemigroup β] (f : α → β) {t u : ReduceTree α}
    (perm : t.leaves.Perm u.leaves) : t.eval (· * ·) f = u.eval (· * ·) f := by
  apply WithOne.coe_injective
  rw [coe_eval_mul, coe_eval_mul]
  exact (perm.map _).prod_eq

/-- A reduction in a subset is one in the whole. -/
theorem eval_coe {S : Set β} {op : β → β → β} (restricted : S → S → S)
    (same : ∀ x y : S, (restricted x y : β) = op x y) (f : α → S) (t : ReduceTree α) :
    ((t.eval restricted f : S) : β) = t.eval op fun a => (f a : β) := by
  induction t with
  | leaf a => rfl
  | node left right ihLeft ihRight => rw [eval, eval, same, ihLeft, ihRight]

/-- **One result for all shapes and orders.** -/
theorem eval_perm {op : β → β → β} {S : Set β} (commutes : CommutesOn op S) {f : α → β}
    (inside : ∀ a, f a ∈ S) {t u : ReduceTree α} (perm : t.leaves.Perm u.leaves) :
    t.eval op f = u.eval op f := by
  let _ : CommSemigroup S := {
    mul x y := ⟨op x y, commutes.closed x x.2 y y.2⟩
    mul_assoc x y z := Subtype.ext (commutes.assoc x x.2 y y.2 z z.2)
    mul_comm x y := Subtype.ext (commutes.comm x x.2 y y.2) }
  have restricted := eval_mul_perm (fun a => (⟨f a, inside a⟩ : S)) perm
  have whole := congrArg Subtype.val restricted
  rwa [eval_coe _ fun _ _ => rfl, eval_coe _ fun _ _ => rfl] at whole

/-- Contributors combined one after the other. -/
def chain (t : ReduceTree α) : List α → ReduceTree α
  | [] => t
  | a :: rest => chain (node t (leaf a)) rest

theorem leaves_chain (t : ReduceTree α) (rest : List α) :
    (chain t rest).leaves = t.leaves ++ rest := by
  induction rest generalizing t with
  | nil => rw [chain, List.append_nil]
  | cons a rest ih => rw [chain, ih, leaves, leaves, List.append_assoc, List.singleton_append]

theorem eval_chain (op : β → β → β) (f : α → β) (t : ReduceTree α) (rest : List α) :
    (chain t rest).eval op f = rest.foldl (fun acc a => op acc (f a)) (t.eval op f) := by
  induction rest generalizing t with
  | nil => rfl
  | cons a rest ih =>
    rw [chain, ih]
    rfl

/-! ## Picking by a key -/

section Pick

variable {κ : Type*} [LinearOrder κ]

/-- The first of two contributions where its key is smaller, else the second. -/
def pick (key : β → κ) (x y : β) : β := if key x < key y then x else y

variable {key : β → κ}

theorem key_pick (key : β → κ) (x y : β) : key (pick key x y) = min (key x) (key y) := by
  rw [pick]
  split
  · next less => exact (min_eq_left less.le).symm
  · next not_less => exact (min_eq_right (not_lt.1 not_less)).symm

/-- Where the key determines the contribution, picking the smallest is commutative and
associative. -/
theorem commutesOn_pick {S : Set β} (inj : Set.InjOn key S) : CommutesOn (pick key) S := by
  have closed : ∀ x ∈ S, ∀ y ∈ S, pick key x y ∈ S := by
    intro x x_in y y_in
    rw [pick]
    split
    · exact x_in
    · exact y_in
  refine ⟨closed, ?_, ?_⟩
  · intro x x_in y y_in
    apply inj (closed x x_in y y_in) (closed y y_in x x_in)
    rw [key_pick key, key_pick key, min_comm]
  · intro x x_in y y_in z z_in
    apply inj (closed _ (closed x x_in y y_in) z z_in) (closed x x_in _ (closed y y_in z z_in))
    rw [key_pick key, key_pick key, key_pick key, key_pick key, min_assoc]

end Pick

end ReduceTree
