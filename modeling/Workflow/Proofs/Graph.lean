import Mathlib.Data.List.Nodup
import Mathlib.Data.List.Perm.Subperm
import Mathlib.Logic.Relation
import Workflow.Graph

/-! # Graph — a breadth-first search finds what paths lead to

    The search goes through a queue of nodes that it has seen and not yet left.  A
    node that it has left has all its targets among those seen, and no node is seen
    twice; so the queue runs dry before the fuel does, and what is seen then is
    closed under edges.

    The heart is `Front`, what holds between two turns of the search. -/

namespace Workflow

namespace Graph

variable {g : Graph} {s n m : String} {fuel : Nat}
  {ns left queue seen : List String}

/-- Does an edge lead from one node to the other? -/
def Edge (g : Graph) (n m : String) : Prop := m ∈ g.targets n

/-- Does a path of edges, perhaps an empty one, lead from one node to the other? -/
abbrev Reaches (g : Graph) : String → String → Prop := Relation.ReflTransGen g.Edge

/-- Every target of an edge, as often as edges lead to it. -/
def allTargets (g : Graph) : List String := g.flatMap Prod.snd

theorem length_allTargets (g : Graph) : g.allTargets.length = g.edgeCount := by
  unfold allTargets edgeCount
  rw [List.length_flatMap]

theorem edge_iff_find :
    g.Edge n m ↔ ∃ e, g.find? (fun e => e.1 == n) = some e ∧ m ∈ e.2 := by
  unfold Edge targets
  cases g.find? fun e => e.1 == n with
  | none   => simp
  | some e => simp

theorem Edge.mem_allTargets (h : g.Edge n m) : m ∈ g.allTargets := by
  obtain ⟨e, he, hm⟩ := edge_iff_find.mp h
  exact List.mem_flatMap.mpr ⟨e, List.mem_of_find?_eq_some he, hm⟩

/-! ## New nodes -/

theorem mem_fresh : n ∈ fresh seen ns ↔ n ∈ ns ∧ n ∉ seen := by
  induction ns generalizing seen with
  | nil => simp [fresh]
  | cons x ns ih =>
      by_cases hx : x ∈ seen
      · simp only [fresh, List.contains_iff_mem.mpr hx, if_true, ih, List.mem_cons]
        constructor
        · rintro ⟨hn, hnew⟩
          exact ⟨.inr hn, hnew⟩
        · rintro ⟨rfl | hn, hnew⟩
          · exact absurd hx hnew
          · exact ⟨hn, hnew⟩
      · have hx' : seen.contains x = false := by simpa using hx
        simp only [fresh, hx', Bool.false_eq_true, if_false, List.mem_cons, ih, not_or]
        constructor
        · rintro (rfl | ⟨hn, -, hnew⟩)
          · exact ⟨.inl rfl, hx⟩
          · exact ⟨.inr hn, hnew⟩
        · rintro ⟨rfl | hn, hnew⟩
          · exact .inl rfl
          · by_cases hnx : n = x
            · exact .inl hnx
            · exact .inr ⟨hn, hnx, hnew⟩

theorem nodup_fresh : (fresh seen ns).Nodup := by
  induction ns generalizing seen with
  | nil => exact List.nodup_nil
  | cons x ns ih =>
      unfold fresh
      split
      · exact ih
      · refine List.nodup_cons.mpr ⟨?_, ih⟩
        intro hx
        exact (mem_fresh.mp hx).2 List.mem_cons_self

/-! ## Nothing but what paths lead to -/

theorem reaches_of_explore (hseen : ∀ n ∈ seen, g.Reaches s n) (hqueue : queue ⊆ seen)
    (hn : n ∈ g.explore fuel queue seen) : g.Reaches s n := by
  induction fuel generalizing queue seen with
  | zero => exact hseen n hn
  | succ fuel ih =>
      cases queue with
      | nil => exact hseen n hn
      | cons x queue =>
          obtain ⟨hx, hqueue⟩ := List.cons_subset.mp hqueue
          refine ih ?_ ?_ hn
          · intro m hm
            rcases List.mem_append.mp hm with hm | hm
            · exact hseen m hm
            · exact (hseen x hx).tail (mem_fresh.mp hm).1
          · intro m hm
            rcases List.mem_append.mp hm with hm | hm
            · exact List.mem_append_left _ (hqueue hm)
            · exact List.mem_append_right _ hm

/-! ## All that paths lead to -/

/-- What holds between two turns of a search from `s`, with the nodes that it has
    left, its queue, and all that it has seen. -/
structure Front (g : Graph) (s : String) (left queue seen : List String) : Prop where
  seen_eq : seen = left ++ queue
  nodup   : seen.Nodup
  closed  : ∀ n ∈ left, ∀ m, g.Edge n m → m ∈ seen
  within  : seen ⊆ s :: g.allTargets

namespace Front

theorem start (g : Graph) (s : String) : g.Front s [] [s] [s] :=
  ⟨rfl, List.nodup_singleton s, fun _ hn => absurd hn List.not_mem_nil, by simp⟩

/-- One turn: the search leaves the first node of the queue. -/
theorem turn (h : g.Front s left (n :: queue) seen) :
    g.Front s (left ++ [n]) (queue ++ fresh seen (g.targets n))
      (seen ++ fresh seen (g.targets n)) where
  seen_eq := by simp [h.seen_eq]
  nodup := by
    refine List.nodup_append.mpr ⟨h.nodup, nodup_fresh, ?_⟩
    rintro x hx y hy rfl
    exact (mem_fresh.mp hy).2 hx
  closed := by
    intro x hx m hm
    rcases List.mem_append.mp hx with hx | hx
    · exact List.mem_append_left _ (h.closed x hx m hm)
    · rw [List.mem_singleton.mp hx] at hm
      by_cases hseen : m ∈ seen
      · exact List.mem_append_left _ hseen
      · exact List.mem_append_right _ (mem_fresh.mpr ⟨hm, hseen⟩)
  within := by
    intro m hm
    rcases List.mem_append.mp hm with hm | hm
    · exact h.within hm
    · have hedge : g.Edge n m := (mem_fresh.mp hm).1
      exact List.mem_cons_of_mem _ hedge.mem_allTargets

/-- No node is seen twice, so the search leaves no more nodes than there are. -/
theorem length_le (h : g.Front s left queue seen) : left.length ≤ g.edgeCount + 1 := by
  have hseen := (h.nodup.subperm h.within).length_le
  rw [List.length_cons, length_allTargets, h.seen_eq, List.length_append] at hseen
  omega

/-- With fuel for every node that is left to leave, the search ends with nodes that
    no edge leads out of. -/
theorem explore (h : g.Front s left queue seen)
    (hfuel : g.edgeCount + 2 ≤ fuel + left.length) :
    seen ⊆ g.explore fuel queue seen ∧
      ∀ n ∈ g.explore fuel queue seen, ∀ m, g.Edge n m →
        m ∈ g.explore fuel queue seen := by
  induction fuel generalizing left queue seen with
  | zero =>
      -- without fuel more nodes would have been left than there are
      have := h.length_le
      omega
  | succ fuel ih =>
      cases queue with
      | nil =>
          have hleft : seen = left := by simpa using h.seen_eq
          exact ⟨List.Subset.refl _, fun n hn => h.closed n (hleft ▸ hn)⟩
      | cons x queue =>
          obtain ⟨hsub, hclosed⟩ := ih h.turn (by
            rw [List.length_append, List.length_singleton]
            omega)
          exact ⟨fun n hn => hsub (List.mem_append_left _ hn), hclosed⟩

end Front

/-- The search finds exactly the nodes that a path of edges leads to. -/
theorem mem_reachableFrom : n ∈ g.reachableFrom s ↔ g.Reaches s n := by
  constructor
  · intro hn
    refine reaches_of_explore ?_ (List.Subset.refl _) hn
    intro m hm
    rw [List.mem_singleton.mp hm]
  · intro hn
    obtain ⟨hsub, hclosed⟩ : [s] ⊆ g.reachableFrom s ∧ ∀ n ∈ g.reachableFrom s, ∀ m,
        g.Edge n m → m ∈ g.reachableFrom s := (Front.start g s).explore (by simp)
    -- on the path from the start: no edge leads out of what the search has found
    induction hn with
    | refl => exact hsub List.mem_cons_self
    | tail _ hedge ih => exact hclosed _ ih _ hedge

end Graph

end Workflow
