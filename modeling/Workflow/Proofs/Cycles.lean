import Mathlib.Data.List.Chain
import Workflow.Proofs.Graph

/-! # Cycles — a depth-first search closes a cycle just where there is one

    The search goes down a path of nodes; a node whose targets it has all passed is
    finished.  Where it comes back to its path it closes a cycle.  As long as it has
    closed none, all that a node leads to is finished before the node itself, so no path
    leads from a finished node back to it; and in the end every node is finished.

    The heart is `Ordered`, what holds whenever the search comes to a node. -/

namespace Workflow

/-- Is the list a cycle of a relation: different items, each related to the next, and
    at last the first one again? -/
structure IsCycle (r : String → String → Prop) (c : List String) : Prop where
  closed   : ∃ n ns, c = n :: ns ++ [n]
  distinct : c.dropLast.Nodup
  linked   : c.IsChain r

/-- Whoever goes along a cycle comes back. -/
theorem IsCycle.transGen {r : String → String → Prop} {c : List String} (h : IsCycle r c) :
    ∃ n, Relation.TransGen r n n := by
  obtain ⟨n, ns, rfl⟩ := h.closed
  refine ⟨n, ?_⟩
  cases ns with
  | nil => exact .single (List.isChain_cons_cons.mp h.linked).1
  | cons m ns =>
      obtain ⟨hnm, hrest⟩ := List.isChain_cons_cons.mp h.linked
      exact .head' hnm (List.relationReflTransGen_of_exists_isChain_cons _ hrest (by simp))

namespace Graph

variable {g : Graph} {s s' s'' inner : Search} {n m t : String} {ts done : List String}
  {fuel depth depth' : Nat}

theorem declares_iff : g.declares n = true ↔ n ∈ g.nodes := by
  unfold declares nodes
  rw [List.any_eq_true, List.mem_map]
  simp

/-- Only a declared node has targets. -/
theorem Edge.declares (h : g.Edge n m) : g.declares n = true := by
  obtain ⟨e, he, _⟩ := edge_iff_find.mp h
  exact List.any_eq_true.mpr ⟨e, List.mem_of_find?_eq_some he,
    List.find?_some (p := fun e : String × List String => e.1 == n) he⟩

/-! ## The search without a bound -/

namespace Search

/-- The search goes down to a node. -/
def enter (s : Search) (n : String) : Search := { s with path := s.path ++ [n] }

/-- The search is done with a node, the last of its path. -/
def leave (s : Search) (n : String) : Search :=
  { s with path := s.path.dropLast, done := n :: s.done }

/-- The search has come back to a node of its path. -/
def close (s : Search) (n : String) : Search :=
  { s with cycles := s.cycles ++ [s.path.dropWhile (· != n) ++ [n]] }

end Search

/-- The search passes nodes in turn, from one state to another, and goes down no deeper
    than so many nodes: it closes a cycle at a node of its path, and goes down to a
    declared one that is new. -/
inductive Scans (g : Graph) : Nat → List String → Search → Search → Prop where
  | none (depth : Nat) (s : Search) : Scans g depth [] s s
  | close {depth : Nat} {t : String} {ts : List String} {s s' : Search} :
      t ∈ s.path → Scans g depth ts (s.close t) s' → Scans g depth (t :: ts) s s'
  | skip {depth : Nat} {t : String} {ts : List String} {s s' : Search} :
      t ∉ s.path → (g.declares t = true → t ∈ s.done) →
      Scans g depth ts s s' → Scans g depth (t :: ts) s s'
  | down {depth : Nat} {t : String} {ts : List String} {s inner s' : Search} :
      t ∉ s.path → g.declares t = true → t ∉ s.done →
      Scans g depth (g.targets t) (s.enter t) inner →
      Scans g (depth + 1) ts (inner.leave t) s' → Scans g (depth + 1) (t :: ts) s s'

namespace Scans

/-- However deep it may go, the search can go one way only. -/
theorem unique (h : g.Scans depth ts s s') (h' : g.Scans depth' ts s s'') : s' = s'' := by
  induction h generalizing depth' s'' with
  | none depth s =>
      cases h' with
      | none => rfl
  | close hpath _ ih =>
      cases h' with
      | close _ h'             => exact ih h'
      | skip hnew _ _          => exact absurd hpath hnew
      | down hnew _ _ _ _      => exact absurd hpath hnew
  | skip hnew hdone _ ih =>
      cases h' with
      | close hpath _          => exact absurd hpath hnew
      | skip _ _ h'            => exact ih h'
      | down _ hdecl hopen _ _ => exact absurd (hdone hdecl) hopen
  | down hnew hdecl hopen _ _ ihdown ih =>
      cases h' with
      | close hpath _          => exact absurd hpath hnew
      | skip _ hdone _         => exact absurd (hdone hdecl) hopen
      | down _ _ _ hdown h'    =>
          obtain rfl := ihdown hdown
          exact ih h'

/-- It comes back to where it has started from. -/
theorem path_eq (h : g.Scans depth ts s s') : s'.path = s.path := by
  induction h with
  | none depth s => rfl
  | close _ _ ih => exact ih
  | skip _ _ _ ih => exact ih
  | @down depth t ts s inner s' _ _ _ _ _ ihdown ih =>
      rw [ih, Search.leave, ihdown, Search.enter, List.dropLast_concat]

/-- The bounded search does the same, with a bound of as much. -/
theorem foldl_visit (h : g.Scans depth ts s s') (hfuel : depth ≤ fuel) :
    ts.foldl (fun s t =>
      if s.path.contains t then s.close t
      else if g.declares t && !s.done.contains t then visit g fuel t s
      else s) s = s' := by
  induction h generalizing fuel with
  | none depth s => rfl
  | close hpath _ ih =>
      rw [List.foldl_cons, if_pos (List.contains_iff_mem.mpr hpath)]
      exact ih hfuel
  | @skip depth t ts s s' hnew hdone _ ih =>
      rw [List.foldl_cons, if_neg (by simpa using hnew), if_neg (by simpa using hdone)]
      exact ih hfuel
  | @down depth t ts s inner s' hnew hdecl hopen _ _ ihdown ih =>
      cases fuel with
      | zero => exact absurd hfuel (Nat.not_succ_le_zero depth)
      | succ fuel =>
          have hvisit : visit g (fuel + 1) t s = inner.leave t := by
            rw [← ihdown (Nat.le_of_succ_le_succ hfuel)]
            rfl
          rw [List.foldl_cons, if_neg (by simpa using hnew), if_pos (by simp [hdecl, hopen]),
            hvisit]
          exact ih hfuel

/-- From an empty path there is nothing to come back to. -/
theorem foldl_nodes (h : g.Scans depth ts s s') (hfuel : depth ≤ fuel) (hpath : s.path = [])
    (hts : ∀ t ∈ ts, g.declares t = true) :
    ts.foldl (fun s t => if s.done.contains t then s else visit g fuel t s) s = s' := by
  induction ts generalizing s with
  | nil =>
      cases h with
      | none => rfl
  | cons t ts ih =>
      rw [List.forall_mem_cons] at hts
      rw [List.foldl_cons]
      cases h with
      | close hmem _ => rw [hpath] at hmem; exact absurd hmem List.not_mem_nil
      | skip _ hdone h =>
          rw [if_pos (List.contains_iff_mem.mpr (hdone hts.1))]
          exact ih h hpath hts.2
      | @down depth _ _ _ inner _ hnew hdecl hopen hdown h =>
          have hvisit := (Scans.down hnew hdecl hopen hdown (.none _ _)).foldl_visit hfuel
          rw [List.foldl_cons, List.foldl_nil, if_neg (by simpa using hnew),
            if_pos (by simp [hdecl, hopen])] at hvisit
          rw [if_neg (by simpa using hopen), hvisit]
          refine ih h ?_ hts.2
          rw [Search.leave, hdown.path_eq, Search.enter, List.dropLast_concat, hpath]

end Scans

/-! ## Finished nodes -/

/-- Are these different nodes, the last finished first, each with all its declared
    targets among those that were finished before it? -/
def Settled (g : Graph) : List String → Prop
  | []        => True
  | n :: done => n ∉ done ∧ (∀ m, g.Edge n m → g.declares m = true → m ∈ done) ∧ g.Settled done

namespace Settled

theorem closed (h : g.Settled done) (hn : n ∈ done) (hedge : g.Edge n m)
    (hm : g.declares m = true) : m ∈ done := by
  induction done with
  | nil => exact absurd hn List.not_mem_nil
  | cons x done ih =>
      obtain ⟨_, htargets, hdone⟩ := h
      rcases List.mem_cons.mp hn with rfl | hn
      · exact List.mem_cons_of_mem _ (htargets m hedge hm)
      · exact List.mem_cons_of_mem _ (ih hdone hn)

/-- What finished nodes lead to is finished. -/
theorem reached (h : g.Settled done) (hn : n ∈ done) (hpath : g.Reaches n m)
    (hm : g.declares m = true) : m ∈ done := by
  induction hpath using Relation.ReflTransGen.head_induction_on with
  | refl => exact hn
  | head hedge hrest ih =>
      refine ih (h.closed hn hedge ?_)
      -- whatever leads on is declared
      rcases hrest.cases_head with rfl | ⟨_, hnext, _⟩
      · exact hm
      · exact hnext.declares

/-- No path leads from a finished node back to it. -/
theorem acyclic (h : g.Settled done) (hn : n ∈ done) : ¬Relation.TransGen g.Edge n n := by
  induction done with
  | nil => exact absurd hn List.not_mem_nil
  | cons x done ih =>
      obtain ⟨hx, htargets, hdone⟩ := h
      by_cases hmem : n ∈ done
      · exact ih hdone hmem
      · -- the last finished node leads only to others, which do not lead to it
        obtain rfl : n = x := (List.mem_cons.mp hn).resolve_right hmem
        intro hcycle
        obtain ⟨m, hedge, hback⟩ := Relation.TransGen.head'_iff.mp hcycle
        have hm : g.declares m = true := by
          rcases hback.cases_head with rfl | ⟨_, hnext, _⟩
          · exact hedge.declares
          · exact hnext.declares
        exact hx (hdone.reached (htargets m hedge hm) hback hedge.declares)

end Settled

/-! ## Between two nodes -/

/-- What holds whenever the search comes to a node. -/
structure Ordered (g : Graph) (s : Search) : Prop where
  linked   : s.path.IsChain g.Edge
  distinct : s.path.Nodup
  declared : ∀ n ∈ s.path, g.declares n = true
  apart    : ∀ n ∈ s.path, n ∉ s.done
  found    : ∀ c ∈ s.cycles, IsCycle g.Edge c
  settled  : s.cycles = [] → g.Settled s.done

/-- Are the nodes targets of the last one of the path, if there is one? -/
def Ahead (g : Graph) (path ts : List String) : Prop :=
  ∀ n ∈ path.getLast?, ∀ t ∈ ts, g.Edge n t

/-- What passing nodes has come to: nothing is forgotten, and the declared ones are
    finished unless a cycle was closed. -/
structure Passed (g : Graph) (ts : List String) (s s' : Search) : Prop where
  done     : s.done ⊆ s'.done
  cycles   : s.cycles <+: s'.cycles
  finished : s'.cycles = [] → ∀ t ∈ ts, g.declares t = true → t ∈ s'.done

namespace Passed

theorem none (g : Graph) (s : Search) : g.Passed [] s s :=
  ⟨List.Subset.refl _, List.prefix_rfl, fun _ _ ht => absurd ht List.not_mem_nil⟩

theorem close (h : g.Passed ts (s.close t) s') : g.Passed (t :: ts) s s' := by
  have hmore := h.cycles
  refine ⟨h.done, (List.prefix_append _ _).trans hmore, fun hnil => ?_⟩
  rw [hnil, List.prefix_nil] at hmore
  exact absurd hmore (List.append_ne_nil_of_right_ne_nil _ (List.cons_ne_nil _ _))

theorem skip (h : g.Passed ts s s') (hdone : g.declares t = true → t ∈ s.done) :
    g.Passed (t :: ts) s s' := by
  refine ⟨h.done, h.cycles, fun hnil => ?_⟩
  rw [List.forall_mem_cons]
  exact ⟨fun hdecl => h.done (hdone hdecl), h.finished hnil⟩

theorem down (hdown : g.Passed (g.targets t) (s.enter t) inner)
    (h : g.Passed ts (inner.leave t) s') : g.Passed (t :: ts) s s' := by
  have hdone : t :: inner.done ⊆ s'.done := h.done
  refine ⟨fun n hn => ?_, hdown.cycles.trans h.cycles, fun hnil => ?_⟩
  · exact hdone (List.mem_cons_of_mem _ (hdown.done hn))
  · rw [List.forall_mem_cons]
    exact ⟨fun _ => hdone List.mem_cons_self, h.finished hnil⟩

end Passed

namespace Ordered

/-- A path has no more nodes than are declared. -/
theorem length_le (h : g.Ordered s) : s.path.length ≤ g.length := by
  have hsub : s.path ⊆ g.nodes := fun n hn => declares_iff.mp (h.declared n hn)
  have hle := (h.distinct.subperm hsub).length_le
  unfold nodes at hle
  rwa [List.length_map] at hle

theorem enter (h : g.Ordered s) (hahead : g.Ahead s.path (t :: ts)) (hnew : t ∉ s.path)
    (hdecl : g.declares t = true) (hopen : t ∉ s.done) : g.Ordered (s.enter t) where
  linked := by
    refine List.isChain_append.mpr ⟨h.linked, .singleton t, ?_⟩
    intro n hn x hx
    obtain rfl : t = x := Option.some.inj hx
    exact hahead n hn t List.mem_cons_self
  distinct := by
    refine List.nodup_append.mpr ⟨h.distinct, List.nodup_singleton t, ?_⟩
    rintro n hn x hx rfl
    exact hnew (List.mem_singleton.mp hx ▸ hn)
  declared := by
    intro n hn
    rcases List.mem_append.mp hn with hn | hn
    · exact h.declared n hn
    · exact List.mem_singleton.mp hn ▸ hdecl
  apart := by
    intro n hn
    rcases List.mem_append.mp hn with hn | hn
    · exact h.apart n hn
    · exact List.mem_singleton.mp hn ▸ hopen
  found := h.found
  settled := h.settled

/-- The targets of a node are ahead of a path down to it. -/
theorem ahead_enter (g : Graph) (s : Search) (t : String) :
    g.Ahead (s.enter t).path (g.targets t) := by
  intro n hn m hm
  rw [Search.enter, List.getLast?_concat] at hn
  exact Option.some.inj hn ▸ hm

/-- From where the search comes back to its path, the path is a cycle. -/
theorem close (h : g.Ordered s) (hahead : g.Ahead s.path (t :: ts)) (hpath : t ∈ s.path) :
    g.Ordered (s.close t) where
  linked := h.linked
  distinct := h.distinct
  declared := h.declared
  apart := h.apart
  found := by
    intro c hc
    rcases List.mem_append.mp hc with hc | hc
    · exact h.found c hc
    · obtain ⟨before, after, hsplit, hbefore⟩ := List.eq_append_cons_of_mem hpath
      have hcycle : s.path.dropWhile (· != t) = t :: after := by
        rw [hsplit, List.dropWhile_append_of_pos, List.dropWhile_cons_of_neg (by simp)]
        intro x hx
        simpa using fun hxt : x = t => hbefore (hxt ▸ hx)
      have hsuffix : t :: after <:+ s.path := hsplit ▸ List.suffix_append before (t :: after)
      rw [List.mem_singleton.mp hc, hcycle]
      refine ⟨⟨t, after, rfl⟩, ?_, ?_⟩
      · rw [List.dropLast_concat]
        exact h.distinct.sublist hsuffix.sublist
      · refine List.isChain_append.mpr ⟨h.linked.suffix hsuffix, .singleton t, ?_⟩
        intro n hn x hx
        obtain rfl : t = x := Option.some.inj hx
        refine hahead n ?_ t List.mem_cons_self
        rw [hsplit]
        exact List.mem_getLast?_append_of_mem_getLast? hn
  settled := by
    intro hnil
    exact absurd hnil (List.append_ne_nil_of_right_ne_nil _ (List.cons_ne_nil _ _))

/-- The node that the search is done with has all its targets finished. -/
theorem leave (h : g.Ordered inner) (hpath : inner.path = s.path ++ [t])
    (hpassed : g.Passed (g.targets t) (s.enter t) inner) : g.Ordered (inner.leave t) := by
  have hleft : (inner.leave t).path = s.path := by
    rw [Search.leave, hpath, List.dropLast_concat]
  have hmem : ∀ n ∈ s.path, n ∈ inner.path := fun n hn => hpath ▸ List.mem_append_left [t] hn
  have hdistinct := hpath ▸ h.distinct
  refine ⟨?_, ?_, ?_, ?_, h.found, fun hnil => ⟨?_, ?_, h.settled hnil⟩⟩
  · rw [hleft]
    exact (hpath ▸ h.linked).left_of_append
  · rw [hleft]
    exact (List.nodup_append.mp hdistinct).1
  · rw [hleft]
    exact fun n hn => h.declared n (hmem n hn)
  · rw [hleft]
    intro n hn hdone
    rcases List.mem_cons.mp hdone with rfl | hdone
    · exact (List.nodup_append.mp hdistinct).2.2 n hn n List.mem_cons_self rfl
    · exact h.apart n (hmem n hn) hdone
  · exact h.apart t (hpath ▸ List.mem_append_right _ List.mem_cons_self)
  · exact fun m hedge hm => hpassed.finished hnil m hedge hm

/-- The search ends, and goes no deeper than there are declared nodes left. -/
theorem scans (h : g.Ordered s) (hahead : g.Ahead s.path ts)
    (hdepth : g.length ≤ depth + s.path.length) :
    ∃ s', g.Scans depth ts s s' ∧ g.Ordered s' ∧ g.Passed ts s s' := by
  induction depth using Nat.strongRecOn generalizing s ts with
  | ind depth ihdepth =>
      induction ts generalizing s with
      | nil => exact ⟨s, .none depth s, h, .none g s⟩
      | cons t ts ih =>
          have hrest : g.Ahead s.path ts := fun n hn m hm =>
            hahead n hn m (List.mem_cons_of_mem t hm)
          by_cases hpath : t ∈ s.path
          · obtain ⟨s', hscans, hs', hpassed⟩ := ih (h.close hahead hpath) hrest hdepth
            exact ⟨s', .close hpath hscans, hs', hpassed.close⟩
          by_cases hskip : g.declares t = true → t ∈ s.done
          · obtain ⟨s', hscans, hs', hpassed⟩ := ih h hrest hdepth
            exact ⟨s', .skip hpath hskip hscans, hs', hpassed.skip hskip⟩
          · obtain ⟨hdecl, hopen⟩ := Classical.not_imp.mp hskip
            -- the path down to a new node is still no longer than there are nodes
            have henter := h.enter hahead hpath hdecl hopen
            have hle := henter.length_le
            rw [Search.enter, List.length_append, List.length_singleton] at hle
            obtain ⟨depth, rfl⟩ : ∃ d, depth = d + 1 := ⟨depth - 1, by omega⟩
            obtain ⟨inner, hdown, hinner, hpassed⟩ := ihdepth depth (Nat.lt_succ_self _)
              henter (ahead_enter g s t) (by
                rw [Search.enter, List.length_append, List.length_singleton]
                omega)
            have hpath' : inner.path = s.path ++ [t] := hdown.path_eq
            have hleft : (inner.leave t).path = s.path := by
              rw [Search.leave, hpath', List.dropLast_concat]
            obtain ⟨s', hscans, hs', hpassed'⟩ := ih (hinner.leave hpath' hpassed)
              (hleft.symm ▸ hrest) (hleft.symm ▸ hdepth)
            exact ⟨s', .down hpath hdecl hopen hdown hscans, hs', hpassed.down hpassed'⟩

end Ordered

/-! ## All nodes -/

/-- The search before it has come to any node. -/
def Search.start : Search := ⟨[], [], []⟩

/-- Over all nodes the search ends, and goes no deeper than there are nodes, so that the
    bound on it changes nothing.  It closes nothing but cycles, and it closes none only
    when there is none. -/
theorem scans_nodes (g : Graph) : ∃ s, g.Scans g.length g.nodes .start s ∧
    s.cycles = g.cycles ∧ (∀ c ∈ s.cycles, IsCycle g.Edge c) ∧
    (s.cycles = [] ↔ ∀ n, ¬Relation.TransGen g.Edge n n) := by
  have hstart : g.Ordered .start := by
    refine ⟨.nil, List.nodup_nil, ?_, ?_, ?_, fun _ => trivial⟩
    · exact fun n hn => absurd hn List.not_mem_nil
    · exact fun n hn => absurd hn List.not_mem_nil
    · exact fun c hc => absurd hc List.not_mem_nil
  have hahead : g.Ahead Search.start.path g.nodes := fun n hn => nomatch hn
  obtain ⟨s, hscans, hs, hpassed⟩ := hstart.scans hahead (Nat.le_refl g.length)
  have hcycles : g.cycles = s.cycles := congrArg Search.cycles
    (hscans.foldl_nodes (Nat.le_succ _) rfl fun _ ht => declares_iff.mpr ht)
  refine ⟨s, hscans, hcycles.symm, hs.found, fun hnil n hcycle => ?_, fun hnone => ?_⟩
  · obtain ⟨_, hedge, _⟩ := Relation.TransGen.head'_iff.mp hcycle
    have hn := hpassed.finished hnil n (declares_iff.mp hedge.declares) hedge.declares
    exact (hs.settled hnil).acyclic hn hcycle
  · refine List.eq_nil_iff_forall_not_mem.mpr fun c hc => ?_
    obtain ⟨n, hn⟩ := (hs.found c hc).transGen
    exact hnone n hn

end Graph

end Workflow
