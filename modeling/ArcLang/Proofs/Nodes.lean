import Mathlib.Data.List.Basic
import ArcLang.Tree.Node

/-!
# Properties of all nodes

A property holds throughout a tree if every node of its outline has it.

* `Node.throughout_iff`: it holds of the node itself and throughout each child.
* `Node.throughout_of_inherited`: it does so if children have it from their parents.
-/

namespace ArcLang.Node

/-- The nodes of a tree, each before its children. -/
def nodes (n : Node) : List Node := (n.outline 0).map Prod.snd

/-- Every node of the tree has the property. -/
def Throughout (P : Node → Prop) (n : Node) : Prop := ∀ m ∈ n.nodes, P m

instance {P : Node → Prop} [DecidablePred P] (n : Node) : Decidable (n.Throughout P) :=
  inferInstanceAs (Decidable (∀ m ∈ n.nodes, P m))

/-- The depth that an outline starts from changes no node in it. -/
theorem map_snd_outline (n : Node) (k : Nat) : (n.outline k).map Prod.snd = n.nodes := by
  induction hn : sizeOf n using Nat.strongRecOn generalizing n k with
  | ind size ih =>
    have children (j : Nat) : (n.children.flatMap (outline j)).map Prod.snd =
        n.children.flatMap nodes := by
      rw [List.map_flatMap]
      refine List.flatMap_congr fun c hc => ?_
      exact ih (sizeOf c) (hn ▸ sizeOf_lt_of_mem_children hc) c j rfl
    rw [nodes, outline_eq, outline_eq, List.map_cons, List.map_cons, children, children]

theorem nodes_eq (n : Node) : n.nodes = n :: n.children.flatMap nodes := by
  rw [nodes, outline_eq, List.map_cons, List.map_flatMap]
  congr 1
  exact List.flatMap_congr fun c _ => map_snd_outline c 1

/-- **A property of a whole tree is one of its root and of each tree below.** -/
theorem throughout_iff {P : Node → Prop} {n : Node} :
    n.Throughout P ↔ P n ∧ ∀ c ∈ n.children, c.Throughout P := by
  unfold Throughout
  rw [nodes_eq, List.forall_mem_cons]
  simp only [List.mem_flatMap]
  refine and_congr_right fun _ => ⟨fun h c hc m hm => h m ⟨c, hc, hm⟩, ?_⟩
  rintro h m ⟨c, hc, hm⟩
  exact h c hc m hm

theorem Throughout.root {P : Node → Prop} {n : Node} (h : n.Throughout P) : P n :=
  (throughout_iff.1 h).1

theorem Throughout.child {P : Node → Prop} {n c : Node} (h : n.Throughout P) (hc : c ∈ n.children) :
    c.Throughout P := (throughout_iff.1 h).2 c hc

/-- **A property that children have from their parents** holds throughout a tree if its root has
it. -/
theorem throughout_of_inherited {P : Node → Prop} (hP : ∀ n, P n → ∀ c ∈ n.children, P c) {n : Node}
    (h : P n) : n.Throughout P := by
  induction hn : sizeOf n using Nat.strongRecOn generalizing n with
  | ind size ih =>
    refine throughout_iff.2 ⟨h, fun c hc => ?_⟩
    exact ih (sizeOf c) (hn ▸ sizeOf_lt_of_mem_children hc) (hP n h c hc) rfl

/-- What holds throughout a tree holds throughout each part of it. -/
theorem Throughout.of_mem {P : Node → Prop} {n m : Node} (h : n.Throughout P) (hm : m ∈ n.nodes) :
    m.Throughout P :=
  throughout_of_inherited (fun _ hn _ hc => hn.child hc) h m hm

theorem Throughout.imp {P Q : Node → Prop} {n : Node} (h : n.Throughout P) (hPQ : ∀ m, P m → Q m) :
    n.Throughout Q := fun m hm => hPQ m (h m hm)

/-! ## Definitions -/

section Definitions

variable {P : Node → Prop}

theorem throughout_typeName (htypes : ∀ t, P (typeName t)) (t : TypeName) :
    (typeName t).Throughout P := by
  induction t with
  | array span element length ih =>
    exact throughout_iff.2 ⟨htypes _, List.forall_mem_singleton.2 ih⟩
  | _ => exact throughout_iff.2 ⟨htypes _, List.forall_mem_nil _⟩

/-- What parameters and types have anyway, a function has throughout if its body has. -/
theorem throughout_function (htypes : ∀ t, P (typeName t)) (hparameters : ∀ b, P (parameter b))
    {f : Function} (hf : P (function f)) (hbody : (block f.body).Throughout P) :
    (function f).Throughout P := by
  refine throughout_iff.2 ⟨hf, ?_⟩
  refine List.forall_mem_append.2 ⟨List.forall_mem_append.2 ⟨?_, ?_⟩, ?_⟩
  · refine List.forall_mem_map.2 fun b _ => throughout_iff.2 ⟨hparameters b, ?_⟩
    exact List.forall_mem_singleton.2 (throughout_typeName htypes b.type)
  · exact List.forall_mem_map.2 fun t _ => throughout_typeName htypes t
  · exact List.forall_mem_singleton.2 hbody

/-- What fields and types have anyway, a struct has throughout. -/
theorem throughout_struct (htypes : ∀ t, P (typeName t)) (hfields : ∀ b, P (field b)) {s : Struct}
    (hs : P (struct s)) : (struct s).Throughout P := by
  refine throughout_iff.2 ⟨hs, List.forall_mem_map.2 fun b _ => throughout_iff.2 ⟨hfields b, ?_⟩⟩
  exact List.forall_mem_singleton.2 (throughout_typeName htypes b.type)

end Definitions

end ArcLang.Node
