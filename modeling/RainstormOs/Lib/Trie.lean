import Mathlib.Data.List.Induction
import Mathlib.Data.Set.Basic
import Mathlib.Data.List.Nodup

/-!
# Tries laid out in a graph

A trie stored in memory is a partial map `child` from a node and an index to a node, together with
the nodes that serve as roots. Nothing in the graph itself says that two roots do not run into each
other further down. `Separated` says it: where two walks from live roots end at one node they took
the same indices, and unless they started at one root they entered through a slot the roots share.
From it follow the forest facts, and it survives linking an empty node and adding a root that copies
the shared slots.
-/

namespace Trie

variable {N I : Type*}

/-- The node a path of indices leads to. -/
def walk (child : N → I → Option N) : N → List I → Option N
  | node, [] => some node
  | node, i :: path => (child node i).bind fun next => walk child next path

variable {child child' : N → I → Option N} {live : Set N} {shared : Set I} {depth : Nat}

@[simp]
theorem walk_nil (node : N) : walk child node [] = some node := rfl

theorem walk_append (node : N) (path path' : List I) :
    walk child node (path ++ path')
      = (walk child node path).bind fun next => walk child next path' := by
  induction path generalizing node with
  | nil => rfl
  | cons i path ih =>
      rw [List.cons_append, walk, walk]
      cases child node i with
      | none => rfl
      | some next => exact ih next

theorem walk_concat {node last : N} {path : List I} (h : walk child node path = some last) (i : I) :
    walk child node (path ++ [i]) = child last i := by
  rw [walk_append, h, Option.bind_some, walk]
  cases child last i <;> rfl

theorem walk_concat_eq_some {node target : N} {path : List I} {i : I} :
    walk child node (path ++ [i]) = some target ↔
      ∃ last, walk child node path = some last ∧ child last i = some target := by
  rw [walk_append, Option.bind_eq_some_iff]
  simp [walk]

theorem walk_congr {root : N} {path : List I} (hlength : path.length ≤ depth)
    (hchild : ∀ node q i, q.length < depth → walk child root q = some node →
      child' node i = child node i) : walk child' root path = walk child root path := by
  induction path using List.reverseRecOn with
  | nil => rfl
  | append_singleton path i ih =>
      rw [List.length_append, List.length_singleton] at hlength
      rw [walk_append, walk_append, ih (by omega)]
      cases hwalk : walk child root path with
      | none => rfl
      | some last =>
          change (child' last i).bind _ = (child last i).bind _
          rw [hchild last path i (by omega) hwalk]
          rfl

/-- The node can be reached from a live root in at most `depth` steps. -/
def Reaches (child : N → I → Option N) (live : Set N) (depth : Nat) (node : N) : Prop :=
  ∃ root ∈ live, ∃ path : List I, path.length ≤ depth ∧ walk child root path = some node

theorem Reaches.mono {depth' : Nat} {node : N} (h : Reaches child live depth node)
    (hle : depth ≤ depth') : Reaches child live depth' node := by
  obtain ⟨root, hroot, path, hlength, hwalk⟩ := h
  exact ⟨root, hroot, path, by omega, hwalk⟩

theorem Reaches.of_child {node next : N} {i : I} (h : Reaches child live depth node)
    (hchild : child node i = some next) : Reaches child live (depth + 1) next := by
  obtain ⟨root, hroot, path, hlength, hwalk⟩ := h
  refine ⟨root, hroot, path ++ [i], ?_, walk_concat_eq_some.mpr ⟨node, hwalk, hchild⟩⟩
  rw [List.length_append, List.length_singleton]
  omega

/-! ### Linking an empty node -/

/-- `child'` is `child` with the empty node `fresh` linked under `parent` at `index`. What the two
say about nodes no live walk reaches is left open. -/
structure Linked (child child' : N → I → Option N) (live : Set N) (depth : Nat) (parent : N)
    (index : I) (fresh : N) : Prop where
  absent : child parent index = none
  linked : child' parent index = some fresh
  empty : ∀ i, child' fresh i = none
  frame : ∀ node i, Reaches child live depth node → (node = parent → i ≠ index) →
    child' node i = child node i

/-- Linking adds the walks that end in the new node and no other. -/
theorem Linked.walk_iff {parent fresh : N} {index : I}
    (h : Linked child child' live depth parent index fresh) {root : N} (hroot : root ∈ live)
    {path : List I} (hlength : path.length ≤ depth + 1) (target : N) :
    walk child' root path = some target ↔
      walk child root path = some target
        ∨ (target = fresh ∧ ∃ q, path = q ++ [index] ∧ walk child root q = some parent) := by
  induction path using List.reverseRecOn generalizing target with
  | nil =>
      constructor
      · exact fun hwalk => Or.inl hwalk
      · rintro (hwalk | ⟨-, q, hnil, -⟩)
        · exact hwalk
        · simp at hnil
  | append_singleton path i ih =>
      rw [List.length_append, List.length_singleton] at hlength
      simp only [walk_concat_eq_some, ih (by omega)]
      constructor
      · rintro ⟨last, hlast | ⟨rfl, -⟩, hchild⟩
        · by_cases hedge : last = parent → i ≠ index
          · rw [h.frame last i ⟨root, hroot, path, by omega, hlast⟩ hedge] at hchild
            exact Or.inl ⟨last, hlast, hchild⟩
          · rw [Classical.not_imp, not_not] at hedge
            obtain ⟨rfl, rfl⟩ := hedge
            rw [h.linked, Option.some.injEq] at hchild
            exact Or.inr ⟨hchild.symm, path, rfl, hlast⟩
        · rw [h.empty] at hchild
          cases hchild
      · rintro (⟨last, hlast, hchild⟩ | ⟨rfl, q, hq, hparent⟩)
        · refine ⟨last, Or.inl hlast, ?_⟩
          rw [h.frame last i ⟨root, hroot, path, by omega, hlast⟩ ?_]
          · exact hchild
          · rintro rfl rfl
            rw [h.absent] at hchild
            cases hchild
        · obtain ⟨rfl, hi⟩ := List.append_inj' hq rfl
          obtain rfl : i = index := by simpa using hi
          exact ⟨parent, Or.inl hparent, h.linked⟩

/-! ### Separation -/

/-- Two walks of at most `depth` steps from live roots meet only where they must. -/
def Separated (child : N → I → Option N) (live : Set N) (shared : Set I) (depth : Nat) : Prop :=
  ∀ root ∈ live, ∀ root' ∈ live, ∀ path path' : List I,
    path.length ≤ depth → path'.length ≤ depth → ∀ node,
      walk child root path = some node → walk child root' path' = some node →
        path = path' ∧ (root = root' ∨ ∃ i ∈ shared, path.head? = some i)

theorem Separated.mono {live' : Set N} (h : Separated child live shared depth)
    (hlive : live' ⊆ live) : Separated child live' shared depth :=
  fun root hroot root' hroot' => h root (hlive hroot) root' (hlive hroot')

theorem Separated.congr (h : Separated child live shared depth)
    (hwalk : ∀ root ∈ live, ∀ path : List I, path.length ≤ depth →
      walk child' root path = walk child root path) :
    Separated child' live shared depth := by
  intro root hroot root' hroot' path path' hlength hlength' node hnode hnode'
  rw [hwalk root hroot path hlength] at hnode
  rw [hwalk root' hroot' path' hlength'] at hnode'
  exact h root hroot root' hroot' path path' hlength hlength' node hnode hnode'

theorem Separated.link {parent fresh : N} {index : I}
    (h : Separated child live shared (depth + 1))
    (hlink : Linked child child' live depth parent index fresh)
    (hfresh : ¬ Reaches child live (depth + 1) fresh) :
    Separated child' live shared (depth + 1) := by
  intro root hroot root' hroot' path path' hlength hlength' node hnode hnode'
  rw [hlink.walk_iff hroot hlength] at hnode
  rw [hlink.walk_iff hroot' hlength'] at hnode'
  obtain hnode | ⟨rfl, q, rfl, hq⟩ := hnode
  · obtain hnode' | ⟨rfl, q', rfl, hq'⟩ := hnode'
    · exact h root hroot root' hroot' path path' hlength hlength' node hnode hnode'
    · exact absurd ⟨root, hroot, path, hlength, hnode⟩ hfresh
  · obtain hnode' | ⟨-, q', rfl, hq'⟩ := hnode'
    · exact absurd ⟨root', hroot', path', hlength', hnode'⟩ hfresh
    · rw [List.length_append, List.length_singleton] at hlength hlength'
      obtain ⟨rfl, hroots⟩ :=
        h root hroot root' hroot' q q' (by omega) (by omega) parent hq hq'
      refine ⟨rfl, ?_⟩
      cases hroots with
      | inl heq => exact Or.inl heq
      | inr hshared =>
          obtain ⟨i, hi, hhead⟩ := hshared
          refine Or.inr ⟨i, hi, ?_⟩
          cases q with
          | nil => cases hhead
          | cons j q => exact hhead

/-- `child'` is `child` with a new root that copies the shared slots of the live root `old`. -/
structure RootAdded (child child' : N → I → Option N) (live : Set N) (shared : Set I) (depth : Nat)
    (old fresh : N) : Prop where
  old_live : old ∈ live
  copied : ∀ i ∈ shared, child' fresh i = child old i
  empty : ∀ i, i ∉ shared → child' fresh i = none
  frame : ∀ node i, Reaches child live depth node → child' node i = child node i

theorem RootAdded.walk_live {old fresh : N}
    (h : RootAdded child child' live shared depth old fresh) {root : N} (hroot : root ∈ live)
    {path : List I} (hlength : path.length ≤ depth + 1) :
    walk child' root path = walk child root path :=
  walk_congr hlength fun node q i hq hwalk =>
    h.frame node i ⟨root, hroot, q, Nat.le_of_lt_succ hq, hwalk⟩

/-- From the new root, a walk through a shared slot goes where the old root's walk goes. -/
theorem RootAdded.walk_fresh {old fresh : N}
    (h : RootAdded child child' live shared depth old fresh) {i : I} {path : List I}
    (hlength : path.length ≤ depth) {node : N} :
    walk child' fresh (i :: path) = some node ↔
      i ∈ shared ∧ walk child old (i :: path) = some node := by
  by_cases hi : i ∈ shared
  · have hold := h.walk_live h.old_live
      (show (i :: path).length ≤ depth + 1 by rw [List.length_cons]; omega)
    have hchild' : child' old i = child old i :=
      h.frame old i ⟨old, h.old_live, [], Nat.zero_le _, rfl⟩
    rw [← hold]
    simp only [walk, h.copied i hi, hchild', hi, true_and]
  · simp [walk, h.empty i hi, hi]

theorem Separated.addRoot {old fresh : N} (h : Separated child live shared (depth + 1))
    (hadd : RootAdded child child' live shared depth old fresh)
    (hfresh : ¬ Reaches child live (depth + 1) fresh) :
    Separated child' (insert fresh live) shared (depth + 1) := by
  -- Walks from the new root are walks from `old` that enter through a shared slot.
  have hold : ∀ path : List I, path.length ≤ depth + 1 → ∀ node,
      walk child' fresh path = some node →
        (path = [] ∧ node = fresh)
          ∨ (walk child old path = some node ∧ ∃ i ∈ shared, path.head? = some i) := by
    intro path hlength node hnode
    cases path with
    | nil => exact Or.inl ⟨rfl, (Option.some.inj hnode).symm⟩
    | cons i path =>
        rw [List.length_cons] at hlength
        rw [hadd.walk_fresh (by omega)] at hnode
        exact Or.inr ⟨hnode.2, i, hnode.1, rfl⟩
  have hmixed : ∀ root' ∈ live, ∀ path path' : List I, path.length ≤ depth + 1 →
      path'.length ≤ depth + 1 → ∀ node, walk child' fresh path = some node →
      walk child' root' path' = some node →
        path = path' ∧ ∃ i ∈ shared, path.head? = some i := by
    intro root' hroot' path path' hlength hlength' node hnode hnode'
    rw [hadd.walk_live hroot' hlength'] at hnode'
    obtain ⟨-, rfl⟩ | ⟨hnode, hshared⟩ := hold path hlength node hnode
    · exact absurd ⟨root', hroot', path', hlength', hnode'⟩ hfresh
    · exact ⟨(h old hadd.old_live root' hroot' path path' hlength hlength' node hnode hnode').1,
        hshared⟩
  rintro root (rfl | hroot) root' (rfl | hroot') path path' hlength hlength' node hnode hnode'
  · refine ⟨?_, Or.inl rfl⟩
    obtain ⟨rfl, rfl⟩ | ⟨hnode, -⟩ := hold path hlength node hnode
    · obtain ⟨rfl, -⟩ | ⟨hnode', -⟩ := hold path' hlength' _ hnode'
      · rfl
      · exact absurd ⟨old, hadd.old_live, path', hlength', hnode'⟩ hfresh
    · obtain ⟨-, heq⟩ | ⟨hnode', -⟩ := hold path' hlength' node hnode'
      · exact absurd ⟨old, hadd.old_live, path, hlength, heq ▸ hnode⟩ hfresh
      · exact (h old hadd.old_live old hadd.old_live path path' hlength hlength' node hnode
          hnode').1
  · obtain ⟨hpath, hshared⟩ :=
      hmixed root' hroot' path path' hlength hlength' node hnode hnode'
    exact ⟨hpath, Or.inr hshared⟩
  · obtain ⟨rfl, hshared⟩ :=
      hmixed root hroot path' path hlength' hlength node hnode' hnode
    exact ⟨rfl, Or.inr hshared⟩
  · rw [hadd.walk_live hroot hlength] at hnode
    rw [hadd.walk_live hroot' hlength'] at hnode'
    exact h root hroot root' hroot' path path' hlength hlength' node hnode hnode'

/-! ### Enumerating a trie -/

/-- The nodes below `node`, children before parents, looking at the listed slots of each level. -/
def postorder (child : N → I → Option N) : List (List I) → N → List N
  | [], _ => []
  | slots :: levels, node =>
      slots.flatMap fun i =>
        match child node i with
        | none => []
        | some next => postorder child levels next ++ [next]

theorem mem_postorder_cons {slots : List I} {levels : List (List I)} {node target : N} :
    target ∈ postorder child (slots :: levels) node ↔
      ∃ i ∈ slots, ∃ next, child node i = some next
        ∧ (target ∈ postorder child levels next ∨ target = next) := by
  rw [postorder, List.mem_flatMap]
  refine exists_congr fun i => and_congr_right fun _ => ?_
  cases child node i with
  | none => simp
  | some next => simp

/-- Everything listed is reached by a walk through a listed slot. -/
theorem exists_walk_of_mem_postorder {slots : List I} {levels : List (List I)} {node target : N}
    (hmem : target ∈ postorder child (slots :: levels) node) :
    ∃ i ∈ slots, ∃ path : List I, path.length ≤ levels.length
      ∧ walk child node (i :: path) = some target := by
  induction levels generalizing slots node with
  | nil =>
      rw [mem_postorder_cons] at hmem
      obtain ⟨i, hi, next, hnext, hbelow | rfl⟩ := hmem
      · cases hbelow
      · exact ⟨i, hi, [], Nat.le_refl _, by rw [walk, hnext]; rfl⟩
  | cons slots' levels ih =>
      rw [mem_postorder_cons] at hmem
      obtain ⟨i, hi, next, hnext, hbelow | rfl⟩ := hmem
      · obtain ⟨j, -, path, hlength, hwalk⟩ := ih hbelow
        refine ⟨i, hi, j :: path, ?_, ?_⟩
        · rw [List.length_cons, List.length_cons]
          omega
        · rw [walk, hnext]
          exact hwalk
      · exact ⟨i, hi, [], Nat.zero_le _, by rw [walk, hnext]; rfl⟩

/-- Every walk through a listed slot is listed, where the levels below list all slots. -/
theorem mem_postorder_of_walk {slots : List I} {levels : List (List I)}
    (hcomplete : ∀ slots ∈ levels, ∀ i, i ∈ slots) {node target : N} {i : I} (hi : i ∈ slots)
    {path : List I} (hlength : path.length ≤ levels.length)
    (hwalk : walk child node (i :: path) = some target) :
    target ∈ postorder child (slots :: levels) node := by
  induction levels generalizing slots node i path with
  | nil =>
      obtain rfl : path = [] := List.length_eq_zero_iff.mp (Nat.le_zero.mp hlength)
      rw [walk, Option.bind_eq_some_iff] at hwalk
      obtain ⟨next, hnext, hend⟩ := hwalk
      rw [mem_postorder_cons]
      exact ⟨i, hi, next, hnext, Or.inr (Option.some.inj hend).symm⟩
  | cons slots' levels ih =>
      rw [walk, Option.bind_eq_some_iff] at hwalk
      obtain ⟨next, hnext, hrest⟩ := hwalk
      rw [mem_postorder_cons]
      refine ⟨i, hi, next, hnext, ?_⟩
      cases path with
      | nil => exact Or.inr (Option.some.inj hrest).symm
      | cons j path =>
          rw [List.length_cons, List.length_cons] at hlength
          exact Or.inl (ih (fun s hs => hcomplete s (List.mem_cons_of_mem _ hs))
            (hcomplete slots' List.mem_cons_self j) (by omega) hrest)

/-- Where walks from `node` do not meet, nothing is listed twice. -/
theorem nodup_postorder {levels : List (List I)} (hslots : ∀ slots ∈ levels, slots.Nodup) {node : N}
    (hinj : ∀ path path' : List I, path.length ≤ levels.length → path'.length ≤ levels.length →
      ∀ target, walk child node path = some target → walk child node path' = some target →
        path = path') : (postorder child levels node).Nodup := by
  induction levels generalizing node with
  | nil => exact List.nodup_nil
  | cons slots levels ih =>
      have hbelow : ∀ i next target, child node i = some next →
          target ∈ postorder child levels next ++ [next] →
          ∃ path : List I, path.length ≤ levels.length
            ∧ walk child node (i :: path) = some target := by
        intro i next target hnext hmem
        rw [List.mem_append, List.mem_singleton] at hmem
        cases hmem with
        | inr heq => exact ⟨[], Nat.zero_le _, by rw [walk, hnext, heq]; rfl⟩
        | inl hmem =>
            cases levels with
            | nil => cases hmem
            | cons slots' levels =>
                obtain ⟨j, -, path, hlength, hwalk⟩ := exists_walk_of_mem_postorder hmem
                refine ⟨j :: path, ?_, ?_⟩
                · rw [List.length_cons, List.length_cons]
                  omega
                · rw [walk, hnext]
                  exact hwalk
      rw [postorder, List.nodup_flatMap]
      constructor
      · intro i hi
        cases hnext : child node i with
        | none => exact List.nodup_nil
        | some next =>
            have hwalk : ∀ path : List I,
                walk child node (i :: path) = walk child next path := by
              intro path
              rw [walk, hnext]
              rfl
            have hnodup : (postorder child levels next).Nodup := by
              refine ih (fun s hs => hslots s (List.mem_cons_of_mem _ hs)) ?_
              intro path path' hlength hlength' target hpath hpath'
              have := hinj (i :: path) (i :: path') (Nat.succ_le_succ hlength)
                (Nat.succ_le_succ hlength') target (by rw [hwalk, hpath])
                (by rw [hwalk, hpath'])
              exact List.tail_eq_of_cons_eq this
            refine List.nodup_append.mpr ⟨hnodup, List.nodup_singleton _, ?_⟩
            rintro a ha b hb rfl
            rw [List.mem_singleton] at hb
            subst hb
            -- The node would be its own descendant: a non-empty walk back to it.
            cases levels with
            | nil => cases ha
            | cons slots' levels =>
                obtain ⟨j, -, path, hlength, hback⟩ := exists_walk_of_mem_postorder ha
                have hmeet := hinj (i :: j :: path) [i]
                  (by rw [List.length_cons, List.length_cons, List.length_cons,
                    List.length_cons]; omega)
                  (by simp) a (by rw [hwalk, hback]) (by rw [hwalk]; rfl)
                simp at hmeet
      · refine (hslots slots List.mem_cons_self).imp ?_
        intro i j hij target hi hj
        cases hnext : child node i with
        | none => simp [hnext] at hi
        | some next =>
            cases hnext' : child node j with
            | none => simp [hnext'] at hj
            | some next' =>
                simp only [hnext] at hi
                simp only [hnext'] at hj
                obtain ⟨path, hlength, hwalk⟩ := hbelow i next target hnext hi
                obtain ⟨path', hlength', hwalk'⟩ := hbelow j next' target hnext' hj
                have := hinj (i :: path) (j :: path') (Nat.succ_le_succ hlength)
                  (Nat.succ_le_succ hlength') target hwalk hwalk'
                exact hij (List.head_eq_of_cons_eq this)

end Trie
