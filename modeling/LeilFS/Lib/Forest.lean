/-
Module: LeilFS.Lib.Forest
Purpose: Parent maps whose nodes all lead up to one root, and what keeps them so.
Trusted boundary: none
-/
import Mathlib

namespace Forest

open List

variable {α : Type*}

/-!
A parent map gives a node at most one parent.  The ascent of a node is the list of
nodes met on the way up, the node itself and the root included.
-/

/-- Following the parents from a node visits the nodes of the list and ends at the root. -/
inductive Ascent (parent : α → Option α) (root : α) : α → List α → Prop
  | root : Ascent parent root root [root]
  | up {node next : α} {above : List α} :
      parent node = some next → Ascent parent root next above →
        Ascent parent root node (node :: above)

namespace Ascent

variable {parent parent' : α → Option α} {root node other : α} {path path' : List α}

theorem mem_self (h : Ascent parent root node path) : node ∈ path := by
  cases h <;> simp

/-- A node that is its own parent comes back to itself. -/
theorem not_nodup_of_self (h : Ascent parent root node path) (notRoot : node ≠ root)
    (self : parent node = some node) : ¬ path.Nodup := by
  cases h with
  | root => exact absurd rfl notRoot
  | up step rest =>
    rw [self] at step
    cases step
    exact fun nodup => (nodup_cons.mp nodup).1 rest.mem_self

/-- The root has no parent, so there is one way up. -/
theorem unique (rootless : parent root = none) (h : Ascent parent root node path)
    (h' : Ascent parent root node path') : path = path' := by
  induction h generalizing path' with
  | root =>
    cases h' with
    | root => rfl
    | up up _ => rw [rootless] at up; cases up
  | up step _ ih =>
    cases h' with
    | root => rw [rootless] at step; cases step
    | up step' rest' =>
      rw [step] at step'
      cases step'
      rw [ih rest']

/-- The ascent of a node on the way is the rest of the way. -/
theorem exists_suffix (h : Ascent parent root node path) (on : other ∈ path) :
    ∃ rest, Ascent parent root other rest ∧ rest <:+ path := by
  induction h with
  | root =>
    rw [mem_singleton] at on
    exact ⟨[root], on ▸ .root, suffix_refl _⟩
  | @up node next above step rest ih =>
    rcases mem_cons.mp on with rfl | later
    · exact ⟨other :: above, .up step rest, suffix_refl _⟩
    · obtain ⟨tail, ascent, suffix⟩ := ih later
      exact ⟨tail, ascent, suffix.trans (suffix_cons _ _)⟩

/-- No node is visited twice. -/
theorem nodup (rootless : parent root = none) (h : Ascent parent root node path) : path.Nodup := by
  induction h with
  | root => simp
  | @up node next above step rest ih =>
    refine nodup_cons.mpr ⟨fun again => ?_, ih⟩
    -- a second visit would have the whole way as a proper part of itself
    obtain ⟨tail, ascent, suffix⟩ := rest.exists_suffix again
    have eq := unique rootless ascent (.up step rest)
    have := suffix.length_le
    rw [eq, length_cons] at this
    omega

/-- An ascent depends on the parents of the nodes below the root only. -/
theorem congr (h : Ascent parent root node path)
    (eq : ∀ d ∈ path, d ≠ root → parent' d = parent d) (rootless : parent root = none) :
    Ascent parent' root node path := by
  induction h with
  | root => exact .root
  | @up node next above step rest ih =>
    have below : node ≠ root := by
      rintro rfl
      rw [rootless] at step
      cases step
    refine .up ?_ (ih fun d on => eq d (mem_cons_of_mem _ on))
    rw [eq node (mem_cons_self ..) below]
    exact step

/-- A property that parents inherit holds all the way up. -/
theorem forall_mem {P : α → Prop} (h : Ascent parent root node path) (start : P node)
    (inherited : ∀ d p, P d → parent d = some p → P p) : ∀ d ∈ path, P d := by
  induction h with
  | root => simpa using start
  | @up node next above step rest ih =>
    intro d on
    rcases mem_cons.mp on with rfl | later
    · exact start
    · exact ih (inherited _ _ start step) d later

/-- A node that is nobody's parent is on no way up but its own. -/
theorem not_mem_of_leaf {leaf : α} (h : Ascent parent root node path)
    (childless : ∀ e, parent e ≠ some leaf) (other : node ≠ leaf) : leaf ∉ path := by
  induction h with
  | root => simpa using other.symm
  | @up node next above step rest ih =>
    intro on
    rcases mem_cons.mp on with eq | later
    · exact other eq.symm
    · exact ih (fun eq => childless node (eq ▸ step)) later

end Ascent

/-! ## Trees -/

/-- Every node leads up to the root, and what is not a node has no parent. -/
structure Rooted (isNode : α → Prop) (parent : α → Option α) (root : α) : Prop where
  rootless : parent root = none
  only : ∀ d p, parent d = some p → isNode d ∧ isNode p
  ascent : ∀ d, isNode d → ∃ path, Ascent parent root d path

namespace Rooted

variable {isNode isNode' : α → Prop} {parent parent' : α → Option α} {root : α}

section

variable (h : Rooted isNode parent root)
include h

/-- The way up has at most as many steps as there are nodes. -/
theorem length_le {d : α} {path : List α} (ascent : Ascent parent root d path) (node : isNode d)
    {nodes : Finset α} (all : ∀ d, isNode d → d ∈ nodes) : path.length ≤ nodes.card := by
  classical
  have nodup := ascent.nodup h.rootless
  have within : ∀ e ∈ path, isNode e := ascent.forall_mem node fun _ p _ step => (h.only _ p step).2
  rw [← toFinset_card_of_nodup nodup]
  refine Finset.card_le_card fun e on => all e (within e ?_)
  simpa using on

/-- The same nodes with the same parents. -/
theorem congr (nodes : ∀ d, isNode' d ↔ isNode d)
    (parents : ∀ d, parent' d = parent d) : Rooted isNode' parent' root := by
  have eq : parent' = parent := funext parents
  subst eq
  exact ⟨h.rootless, fun d p step => by simpa [nodes] using h.only d p step,
    fun d node => h.ascent d ((nodes d).mp node)⟩

/-- A new node below an old one. -/
theorem addLeaf {leaf above : α} (new : ¬ isNode leaf)
    (old : isNode above) (leafNotRoot : leaf ≠ root)
    (nodes : ∀ d, isNode' d ↔ isNode d ∨ d = leaf) (leafParent : parent' leaf = some above)
    (others : ∀ d, d ≠ leaf → parent' d = parent d) : Rooted isNode' parent' root := by
  have lifted : ∀ d path, isNode d → Ascent parent root d path →
      Ascent parent' root d path := by
    intro d path node ascent
    refine ascent.congr (fun e on _ => others e ?_) h.rootless
    rintro rfl
    exact new (ascent.forall_mem node (fun _ p _ step => (h.only _ p step).2) e on)
  refine ⟨?_, fun d p step => ?_, fun d node => ?_⟩
  · rw [others root leafNotRoot.symm, h.rootless]
  · by_cases eq : d = leaf
    · subst eq
      rw [leafParent] at step
      cases step
      exact ⟨(nodes _).mpr (.inr rfl), (nodes _).mpr (.inl old)⟩
    · rw [others d eq] at step
      obtain ⟨below, up⟩ := h.only d p step
      exact ⟨(nodes _).mpr (.inl below), (nodes _).mpr (.inl up)⟩
  · rcases (nodes d).mp node with oldNode | rfl
    · obtain ⟨path, ascent⟩ := h.ascent d oldNode
      exact ⟨path, lifted d path oldNode ascent⟩
    · obtain ⟨path, ascent⟩ := h.ascent above old
      exact ⟨d :: path, .up leafParent (lifted above path old ascent)⟩

/-- Without a node that is nobody's parent, all others keep their ways up. -/
theorem ascent_removeLeaf {leaf : α} (childless : ∀ e, parent e ≠ some leaf)
    (others : ∀ d, d ≠ leaf → parent' d = parent d) {d : α} {path : List α}
    (other : d ≠ leaf) (ascent : Ascent parent root d path) : Ascent parent' root d path := by
  have off := ascent.not_mem_of_leaf childless other
  refine ascent.congr (fun e on _ => others e ?_) h.rootless
  rintro rfl
  exact off on

/-- A node that is nobody's parent goes. -/
theorem removeLeaf {leaf : α} (childless : ∀ e, parent e ≠ some leaf) (leafNotRoot : leaf ≠ root)
    (nodes : ∀ d, isNode' d ↔ isNode d ∧ d ≠ leaf) (leafParent : parent' leaf = none)
    (others : ∀ d, d ≠ leaf → parent' d = parent d) : Rooted isNode' parent' root := by
  refine ⟨?_, fun d p step => ?_, fun d node => ?_⟩
  · rw [others root leafNotRoot.symm, h.rootless]
  · have below : d ≠ leaf := by
      rintro rfl
      rw [leafParent] at step
      cases step
    rw [others d below] at step
    obtain ⟨node, up⟩ := h.only d p step
    refine ⟨(nodes _).mpr ⟨node, below⟩, (nodes _).mpr ⟨up, ?_⟩⟩
    rintro rfl
    exact childless d step
  · obtain ⟨old, other⟩ := (nodes d).mp node
    obtain ⟨path, ascent⟩ := h.ascent d old
    exact ⟨path, h.ascent_removeLeaf childless others other ascent⟩

/-- A node with all that is below it goes below another one, whose way up does not
pass the node. -/
theorem move {moved above : α} {path : List α} (node : isNode moved) (target : isNode above)
    (notRoot : moved ≠ root) (ascent : Ascent parent root above path) (off : moved ∉ path)
    (nodes : ∀ d, isNode' d ↔ isNode d) (movedParent : parent' moved = some above)
    (others : ∀ d, d ≠ moved → parent' d = parent d) : Rooted isNode' parent' root := by
  have lifted : Ascent parent' root above path := by
    refine ascent.congr (fun e on _ => others e ?_) h.rootless
    rintro rfl
    exact off on
  refine ⟨?_, fun d p step => ?_, fun d inTree => ?_⟩
  · rw [others root notRoot.symm, h.rootless]
  · by_cases eq : d = moved
    · subst eq
      rw [movedParent] at step
      cases step
      exact ⟨(nodes _).mpr node, (nodes _).mpr target⟩
    · rw [others d eq] at step
      obtain ⟨below, up⟩ := h.only d p step
      exact ⟨(nodes _).mpr below, (nodes _).mpr up⟩
  · obtain ⟨old, up⟩ := h.ascent d ((nodes d).mp inTree)
    clear inTree
    -- go up as before; at the moved node continue with the new way
    induction up with
    | root => exact ⟨[root], .root⟩
    | @up d next rest step _ ih =>
      by_cases eq : d = moved
      · exact ⟨d :: path, .up (eq ▸ movedParent) lifted⟩
      · obtain ⟨path', ascent'⟩ := ih
        exact ⟨d :: path', .up ((others d eq).trans step) ascent'⟩

end

end Rooted

end Forest
