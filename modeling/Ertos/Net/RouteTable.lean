import Ertos.Net.Ip
import Ertos.Net.Route
import Mathlib.Data.List.MinMax

/-!
# Lookup in the routing table

The routes that were accepted are on the list, the most recent one first, and no two of them have
the same destination, netmask and interface. `en_ip_route_lookup` goes through the list and keeps
the best route it has seen, where a later one has to be better: it finds the first of the matching
routes with the least metric, which is the most recent one.
-/

namespace Ertos

open Linked Transition

variable {route : Ptr → EnIpRoute} {h h' : ListHeap} {head : Ptr}

/-! ## Lookup -/

/-- The route is for this address. -/
def EnIpRoute.Matches (rt : EnIpRoute) (dst : UInt32) : Prop := dst &&& rt.netmask = rt.dst

instance (rt : EnIpRoute) (dst : UInt32) : Decidable (rt.Matches dst) :=
  inferInstanceAs (Decidable (_ = _))

/-- One iteration of `en_ip_route_lookup`: the best route after looking at one more. -/
def betterRoute (route : Ptr → EnIpRoute) (dst : UInt32) (bestrt rt : Ptr) : Ptr :=
  if dst &&& (route rt).netmask = (route rt).dst then
    if bestrt ≠ NULL then
      if (route rt).metric < (route bestrt).metric then rt else bestrt
    else rt
  else bestrt

/-- The loop of `en_ip_route_lookup`, started at `p`. -/
def bestRouteFrom (route : Ptr → EnIpRoute) (h : ListHeap) (dst : UInt32) :
    ℕ → Ptr → Ptr → Option Ptr
  | 0, p, bestrt => if p = NULL then some bestrt else none
  | fuel + 1, p, bestrt =>
    if p = NULL then some bestrt
    else bestRouteFrom route h dst fuel (h.next p) (betterRoute route dst bestrt p)

/-- `en_ip_route_lookup`, or `none` if its loop did not end within `fuel` iterations. -/
def bestRoute (route : Ptr → EnIpRoute) (head : Ptr) (fuel : ℕ) (h : ListHeap) (dst : UInt32) :
    Option Ptr :=
  bestRouteFrom route h dst fuel (h.next head) NULL

theorem exists_bestRouteFrom (route : Ptr → EnIpRoute) (dst : UInt32) {p : Ptr} {l : List Ptr}
    (hpath : Path h.next p l NULL) (hnull : NULL ∉ l) (bestrt : Ptr) :
    ∃ fuel, bestRouteFrom route h dst fuel p bestrt =
      some (l.foldl (betterRoute route dst) bestrt) := by
  induction l generalizing p bestrt with
  | nil =>
    obtain rfl : p = NULL := hpath
    exact ⟨0, rfl⟩
  | cons x l ih =>
    obtain ⟨rfl, hrest⟩ := hpath
    obtain ⟨hp, hnull'⟩ := not_or.mp (List.mem_cons.not.mp hnull)
    obtain ⟨fuel, hfuel⟩ := ih hrest hnull' (betterRoute route dst bestrt p)
    refine ⟨fuel + 1, ?_⟩
    rw [bestRouteFrom, if_neg (Ne.symm hp), hfuel, List.foldl_cons]

/-- What a pointer to a route points to. -/
def routeAt (route : Ptr → EnIpRoute) (p : Ptr) : Option EnIpRoute :=
  if p = NULL then none else some (route p)

theorem routeLookupFrom_map (dst : UInt32) {l : List Ptr} (hnull : NULL ∉ l) (bestrt : Ptr) :
    routeLookupFrom dst (l.map route) (routeAt route bestrt) =
      routeAt route (l.foldl (betterRoute route dst) bestrt) := by
  induction l generalizing bestrt with
  | nil => rfl
  | cons p l ih =>
    obtain ⟨hp, hnull'⟩ := not_or.mp (List.mem_cons.not.mp hnull)
    have hpt : routeAt route p = some (route p) := if_neg (Ne.symm hp)
    rw [List.map_cons, List.foldl_cons, ← ih hnull', betterRoute]
    by_cases hbest : bestrt = NULL
    · rw [routeAt, if_pos hbest, routeLookupFrom, if_neg (not_not.mpr hbest)]
      split_ifs
      · rw [hpt]
      · rw [routeAt, if_pos hbest]
    · rw [routeAt, if_neg hbest, routeLookupFrom, if_pos hbest]
      split_ifs with hm hlt
      · rw [hpt]
      · rw [routeAt, if_neg hbest]
      · rw [routeAt, if_neg hbest]

/-- The routes for this address. -/
def matching (route : Ptr → EnIpRoute) (dst : UInt32) (l : List Ptr) : List Ptr :=
  l.filter fun p ↦ (route p).Matches dst

/-- The first one of those with the least metric. -/
def leastMetric (route : Ptr → EnIpRoute) (l : List Ptr) : Option Ptr :=
  l.argmin fun p ↦ (route p).metric.toNat

theorem mem_matching {dst : UInt32} {l : List Ptr} {p : Ptr} :
    p ∈ matching route dst l ↔ p ∈ l ∧ (route p).Matches dst := by
  rw [matching, List.mem_filter, decide_eq_true_eq]

theorem matching_append_singleton (dst : UInt32) (l : List Ptr) (p : Ptr) :
    matching route dst (l ++ [p]) =
      if (route p).Matches dst then matching route dst l ++ [p] else matching route dst l := by
  rw [matching, List.filter_append]
  by_cases hp : (route p).Matches dst
  · simp [hp, matching]
  · simp [hp, matching]

/-- **The scan** finds the first matching route with the least metric. -/
theorem foldl_betterRoute (dst : UInt32) {l : List Ptr} (hnull : NULL ∉ l) :
    l.foldl (betterRoute route dst) NULL =
      (leastMetric route (matching route dst l)).getD NULL := by
  induction l using List.reverseRecOn with
  | nil => rfl
  | append_singleton l p ih =>
    have hnull' : NULL ∉ l := fun hm ↦ hnull (List.mem_append_left _ hm)
    rw [List.foldl_append, List.foldl_cons, List.foldl_nil, ih hnull', matching_append_singleton,
      betterRoute, leastMetric, leastMetric]
    by_cases hp : (route p).Matches dst
    · rw [if_pos hp, if_pos (show dst &&& (route p).netmask = (route p).dst from hp),
        List.argmin_concat]
      cases hc : (matching route dst l).argmin fun p ↦ (route p).metric.toNat with
      | none => rfl
      | some c =>
        have hcnull : c ≠ NULL := fun hzero ↦
          hnull' (hzero ▸ (mem_matching.mp (List.argmin_mem hc)).1)
        dsimp only [Option.getD_some]
        rw [if_pos hcnull]
        by_cases hlt : (route p).metric < (route c).metric
        · rw [if_pos hlt, if_pos (UInt8.lt_iff_toNat_lt.mp hlt)]
          rfl
        · rw [if_neg hlt, if_neg fun hlt' ↦ hlt (UInt8.lt_iff_toNat_lt.mpr hlt')]
          rfl
    · rw [if_neg hp, if_neg (show ¬dst &&& (route p).netmask = (route p).dst from hp)]

/-- The route is the best one for this address among the routes of `l`, which are in the order in
which they were added. -/
structure BestRoute (route : Ptr → EnIpRoute) (l : List Ptr) (dst : UInt32) (rt : Ptr) : Prop where
  mem : rt ∈ l
  applies : (route rt).Matches dst
  least : ∀ p ∈ l, (route p).Matches dst → (route rt).metric ≤ (route p).metric
  latest : ∀ l₁ l₂, l = l₁ ++ rt :: l₂ → ∀ p ∈ l₂, (route p).Matches dst →
    (route rt).metric < (route p).metric

theorem bestRoute_of_leastMetric {dst : UInt32} {l : List Ptr} {rt : Ptr} (hnodup : l.Nodup)
    (hrt : leastMetric route (matching route dst l.reverse) = some rt) :
    BestRoute route l dst rt := by
  obtain ⟨hmem, hle, hfirst⟩ := List.mem_argmin_iff.mp hrt
  have hmatch : ∀ p ∈ l, (route p).Matches dst → p ∈ matching route dst l.reverse :=
    fun p hp hpm ↦ mem_matching.mpr ⟨List.mem_reverse.mpr hp, hpm⟩
  obtain ⟨hrt, hrtm⟩ := mem_matching.mp hmem
  refine ⟨List.mem_reverse.mp hrt, hrtm, fun p hp hpm ↦ ?_, fun l₁ l₂ hl p hp hpm ↦ ?_⟩
  · exact UInt8.le_iff_toNat_le.mpr (hle p (hmatch p hp hpm))
  · refine UInt8.lt_iff_toNat_lt.mpr (lt_of_not_ge fun hge ↦ ?_)
    have hpl : p ∈ l := hl ▸ List.mem_append_right l₁ (List.mem_cons_of_mem rt hp)
    have hidx := hfirst p (hmatch p hpl hpm) hge
    -- the later routes are in front
    have hsplit : matching route dst l.reverse =
        matching route dst l₂.reverse ++ rt :: matching route dst l₁.reverse := by
      rw [hl, List.reverse_append, List.reverse_cons, List.append_assoc, matching,
        List.filter_append, List.singleton_append, List.filter_cons_of_pos]
      · rfl
      · exact decide_eq_true hrtm
    have hpm' : p ∈ matching route dst l₂.reverse :=
      mem_matching.mpr ⟨List.mem_reverse.mpr hp, hpm⟩
    have hrt' : rt ∉ matching route dst l₂.reverse := by
      rw [hl, List.nodup_append, List.nodup_cons] at hnodup
      exact fun hm ↦ hnodup.2.1.1 (List.mem_reverse.mp (mem_matching.mp hm).1)
    rw [hsplit, List.idxOf_append_of_mem hpm', List.idxOf_append_of_notMem hrt'] at hidx
    have hlt := List.idxOf_lt_length_iff.mpr hpm'
    omega

/-! ## Additions -/

/-- What tells routes apart. -/
def EnIpRoute.key (rt : EnIpRoute) : UInt32 × UInt32 × Ptr := (rt.dst, rt.netmask, rt.ethIf)

theorem EnIpRoute.same_iff {rt newrt : EnIpRoute} : rt.same newrt ↔ rt.key = newrt.key := by
  simp [same, key, and_assoc]

theorem exists_routeExists (route : Ptr → EnIpRoute) (newrt : Ptr) {p : Ptr} {l : List Ptr}
    (hpath : Path h.next p l NULL) (hnull : NULL ∉ l) : ∃ fuel, routeExists route h newrt fuel p =
      some (l.any fun q ↦ (route q).same (route newrt)) := by
  induction l generalizing p with
  | nil =>
    obtain rfl : p = NULL := hpath
    exact ⟨0, rfl⟩
  | cons x l ih =>
    obtain ⟨rfl, hrest⟩ := hpath
    obtain ⟨hp, hnull'⟩ := not_or.mp (List.mem_cons.not.mp hnull)
    obtain ⟨fuel, hfuel⟩ := ih hrest hnull'
    refine ⟨fuel + 1, ?_⟩
    rw [routeExists, if_neg (Ne.symm hp), List.any_cons, hfuel]
    cases (route p).same (route newrt) <;> rfl

/-- What the search finds does not depend on how many iterations it is granted. -/
theorem eq_of_routeExists {newrt p : Ptr} {fuel : ℕ} {l : List Ptr} {found : Bool}
    (hpath : Path h.next p l NULL) (hnull : NULL ∉ l)
    (hfound : routeExists route h newrt fuel p = some found) :
    found = l.any fun q ↦ (route q).same (route newrt) := by
  induction fuel generalizing p l with
  | zero =>
    cases l with
    | nil =>
      obtain rfl : p = NULL := hpath
      exact (Option.some.inj hfound).symm
    | cons x l =>
      obtain ⟨rfl, -⟩ := hpath
      rw [routeExists, if_neg fun hp : p = NULL ↦ hnull (hp ▸ List.mem_cons_self)] at hfound
      exact absurd hfound.symm (Option.some_ne_none found)
  | succ fuel ih =>
    cases l with
    | nil =>
      obtain rfl : p = NULL := hpath
      exact (Option.some.inj hfound).symm
    | cons x l =>
      obtain ⟨rfl, hrest⟩ := hpath
      rw [routeExists, if_neg fun hp : p = NULL ↦ hnull (hp ▸ List.mem_cons_self)] at hfound
      rw [List.any_cons]
      cases hsame : (route p).same (route newrt) with
      | true =>
        rw [hsame] at hfound
        exact (Option.some.inj hfound).symm
      | false =>
        rw [hsame] at hfound
        exact ih hrest (fun hm ↦ hnull (List.mem_cons_of_mem p hm)) hfound

/-- The table in memory holds these routes, the most recent one first, and no two are the same. -/
structure RouteTable (route : Ptr → EnIpRoute) (head : Ptr) (h : ListHeap) (l : List Ptr) :
    Prop where
  list : ListInv head ⟨h, l⟩
  keys : (l.map fun p ↦ (route p).key).Nodup

namespace RouteTable

variable {l : List Ptr}

theorem init (hnext : h.next head = NULL) : RouteTable route head h [] :=
  ⟨ListInv.init hnext, List.nodup_nil⟩

/-- **An addition** is rejected if there is such a route already, and accepted otherwise. -/
theorem add {newrt : Ptr} {fuel : ℕ} {rc : ℤ} (ht : RouteTable route head h l)
    (hnull : newrt ≠ NULL) (hhead : newrt ≠ head) (hnew : newrt ∉ l)
    (hadd : enIpRouteAdd route head fuel h newrt = some (rc, h')) :
    (rc = 0 ∧ (route newrt).key ∉ l.map (fun p ↦ (route p).key) ∧
      RouteTable route head h' (newrt :: l)) ∨
    (rc ≠ 0 ∧ (route newrt).key ∈ l.map (fun p ↦ (route p).key) ∧ h' = h) := by
  obtain ⟨found, hfound, heq⟩ := Option.map_eq_some_iff.mp hadd
  have hany := eq_of_routeExists ht.list.path ht.list.null_notMem hfound
  have hiff : found = true ↔ (route newrt).key ∈ l.map (fun p ↦ (route p).key) := by
    simp only [hany, List.any_eq_true, List.mem_map, EnIpRoute.same_iff]
  cases found with
  | true =>
    obtain ⟨rfl, rfl⟩ := Prod.mk.inj heq
    exact Or.inr ⟨by decide, hiff.mp rfl, rfl⟩
  | false =>
    obtain ⟨rfl, rfl⟩ := Prod.mk.inj heq
    have hkey := fun hm ↦ Bool.false_ne_true (hiff.mpr hm)
    exact Or.inl ⟨rfl, hkey, ht.list.add hnull hhead hnew, List.nodup_cons.mpr ⟨hkey, ht.keys⟩⟩

theorem exists_add (ht : RouteTable route head h l) (newrt : Ptr) :
    ∃ fuel rc h', enIpRouteAdd route head fuel h newrt = some (rc, h') := by
  obtain ⟨fuel, hfuel⟩ :=
    exists_routeExists route newrt ht.list.path ht.list.null_notMem
  exact ⟨fuel, _, _, by rw [enIpRouteAdd, hfuel, Option.map_some]⟩

/-- **A lookup** yields no route if none matches, and the best one otherwise. -/
theorem lookup (ht : RouteTable route head h l) (dst : UInt32) :
    ∃ fuel rt, bestRoute route head fuel h dst = some rt ∧
      (rt = NULL ↔ ∀ p ∈ l, ¬(route p).Matches dst) ∧
      (rt ≠ NULL → BestRoute route l.reverse dst rt) := by
  have hnull := ht.list.null_notMem
  obtain ⟨fuel, hfuel⟩ := exists_bestRouteFrom route dst ht.list.path hnull NULL
  refine ⟨fuel, _, hfuel, ?_⟩
  rw [foldl_betterRoute dst hnull]
  cases hleast : leastMetric route (matching route dst l) with
  | none =>
    have hnone : matching route dst l = [] := List.argmin_eq_none.mp hleast
    refine ⟨iff_of_true rfl fun p hp hpm ↦ ?_, fun hne ↦ absurd rfl hne⟩
    exact List.not_mem_nil (hnone ▸ mem_matching.mpr ⟨hp, hpm⟩)
  | some rt =>
    obtain ⟨hrt, hrtm⟩ := mem_matching.mp (List.argmin_mem hleast)
    have hne : rt ≠ NULL := fun hzero ↦ hnull (hzero ▸ hrt)
    refine ⟨iff_of_false hne fun hall ↦ hall rt hrt hrtm, fun _ ↦ ?_⟩
    refine bestRoute_of_leastMetric (List.nodup_reverse.mpr ht.list.nodup) ?_
    rwa [List.reverse_reverse]

/-- **The list of routes** that the network code is modelled with is this table. -/
theorem lookup_eq (ht : RouteTable route head h l) (dst : UInt32) :
    ∃ fuel rt, bestRoute route head fuel h dst = some rt ∧
      enIpRouteLookup (l.map route) dst = routeAt route rt := by
  have hnull := ht.list.null_notMem
  obtain ⟨fuel, hfuel⟩ := exists_bestRouteFrom route dst ht.list.path hnull NULL
  exact ⟨fuel, _, hfuel, routeLookupFrom_map dst hnull NULL⟩

end RouteTable

/-! ## Sequences of additions -/

/-- A call of `en_ip_route_add`, and what it returned. -/
structure RouteAdd where
  newrt : Ptr
  rc : ℤ

def RouteAddStep (route : Ptr → EnIpRoute) (head : Ptr) (h : ListHeap) (c : RouteAdd)
    (h' : ListHeap) : Prop :=
  ∃ fuel, enIpRouteAdd route head fuel h c.newrt = some (c.rc, h')

/-- The routes whose addition returned `0`, in this order. -/
def accepted (calls : List RouteAdd) : List Ptr :=
  (calls.filter fun c ↦ c.rc = 0).map RouteAdd.newrt

theorem accepted_cons (c : RouteAdd) (calls : List RouteAdd) : accepted (c :: calls) =
    if c.rc = 0 then c.newrt :: accepted calls else accepted calls := by
  by_cases hc : c.rc = 0
  · simp [accepted, hc]
  · simp [accepted, hc]

/-- Along a run, the table holds what it held and what was accepted. -/
theorem routeTable_last {l : List Ptr} {r : List (RouteAdd × ListHeap)}
    (ht : RouteTable route head h l) (hrun : IsRun (RouteAddStep route head) h r)
    (hnodup : ((r.map Prod.fst).map RouteAdd.newrt).Nodup)
    (hnew : ∀ p ∈ (r.map Prod.fst).map RouteAdd.newrt, p ≠ NULL ∧ p ≠ head ∧ p ∉ l) :
    RouteTable route head (last h r) ((accepted (r.map Prod.fst)).reverse ++ l) := by
  induction r generalizing h l with
  | nil => exact ht
  | cons e r ih =>
    obtain ⟨c, h'⟩ := e
    obtain ⟨⟨fuel, hadd⟩, hrest⟩ := hrun
    rw [List.map_cons, List.map_cons, List.nodup_cons] at hnodup
    obtain ⟨hnull, hhead, hcl⟩ := hnew c.newrt List.mem_cons_self
    have hnew' : ∀ p ∈ (r.map Prod.fst).map RouteAdd.newrt, p ≠ NULL ∧ p ≠ head ∧ p ∉ l :=
      fun p hp ↦ hnew p (List.mem_cons_of_mem _ hp)
    rw [last_cons, List.map_cons, accepted_cons]
    rcases ht.add hnull hhead hcl hadd with ⟨hrc, -, ht'⟩ | ⟨hrc, -, rfl⟩
    · rw [if_pos hrc, List.reverse_cons, List.append_assoc]
      refine ih ht' hrest hnodup.2 fun p hp ↦ ?_
      obtain ⟨hp₁, hp₂, hp₃⟩ := hnew' p hp
      exact ⟨hp₁, hp₂, fun hm ↦ (List.mem_cons.mp hm).elim (fun heq ↦ hnodup.1 (heq ▸ hp)) hp₃⟩
    · rw [if_neg hrc]
      exact ih ht hrest hnodup.2 hnew'

/-- The table as the program sees it. -/
def Holds (head : Ptr) (h : ListHeap) (l : List Ptr) : Prop :=
  ∃ fuel, listWalk h fuel (h.next head) = some l

/-- **The routing table.** After any sequence of additions of distinct objects to an empty table, it
holds the routes that were accepted and none that was rejected, no two of which are the same, and
every lookup finds the best one. -/
theorem routeTable_best {r : List (RouteAdd × ListHeap)} (hnext : h.next head = NULL)
    (hrun : IsRun (RouteAddStep route head) h r)
    (hnodup : ((r.map Prod.fst).map RouteAdd.newrt).Nodup)
    (hnew : ∀ p ∈ (r.map Prod.fst).map RouteAdd.newrt, p ≠ NULL ∧ p ≠ head) :
    Holds head (last h r) (accepted (r.map Prod.fst)).reverse ∧
      (∀ c ∈ r.map Prod.fst, c.newrt ∈ accepted (r.map Prod.fst) ↔ c.rc = 0) ∧
      ((accepted (r.map Prod.fst)).map fun p ↦ (route p).key).Nodup ∧
      (∀ newrt, ∃ c h', c.newrt = newrt ∧ RouteAddStep route head (last h r) c h') ∧
      ∀ dst, ∃ fuel rt, bestRoute route head fuel (last h r) dst = some rt ∧
        (rt = NULL ↔ ∀ p ∈ accepted (r.map Prod.fst), ¬(route p).Matches dst) ∧
        (rt ≠ NULL → BestRoute route (accepted (r.map Prod.fst)) dst rt) := by
  have ht := routeTable_last (RouteTable.init hnext) hrun hnodup fun p hp ↦
    ⟨(hnew p hp).1, (hnew p hp).2, List.not_mem_nil⟩
  rw [List.append_nil] at ht
  refine ⟨listWalk_eq_some.mpr ⟨ht.list.path, ht.list.null_notMem⟩, fun c hc ↦ ⟨fun hm ↦ ?_, ?_⟩,
    ?_, fun newrt ↦ ?_, fun dst ↦ ?_⟩
  · obtain ⟨c', hc', heq⟩ := List.mem_map.mp hm
    obtain ⟨hc', hrc⟩ := List.mem_filter.mp hc'
    obtain rfl : c' = c := List.inj_on_of_nodup_map hnodup hc' hc heq
    exact of_decide_eq_true hrc
  · exact fun hrc ↦ List.mem_map_of_mem (List.mem_filter.mpr ⟨hc, decide_eq_true hrc⟩)
  · have hkeys := ht.keys
    rwa [List.map_reverse, List.nodup_reverse] at hkeys
  · obtain ⟨fuel, rc, h', hadd⟩ := ht.exists_add newrt
    exact ⟨⟨newrt, rc⟩, h', rfl, fuel, hadd⟩
  · obtain ⟨fuel, rt, hrt, hiff, hbest⟩ := ht.lookup dst
    rw [List.reverse_reverse] at hbest
    simp only [List.mem_reverse] at hiff
    exact ⟨fuel, rt, hrt, hiff, hbest⟩

/-- Two routes to the network 192.168.0.0, and a default route. -/
def lanRoutes (p : Ptr) : EnIpRoute :=
  if p = 4 then ⟨0, 0, 0xC0A80001, 0, 1, 0x100⟩ else ⟨0xC0A80000, 0xFFFFFF00, 0, 1, 1, 0x100⟩

/-- The second route is the same as the first one. -/
def lanAdds : List (RouteAdd × ListHeap) :=
  [(⟨2, 0⟩, listAddAfter clearedHeap 1 2), (⟨3, -1⟩, listAddAfter clearedHeap 1 2),
    (⟨4, 0⟩, listAddAfter (listAddAfter clearedHeap 1 2) 1 4)]

/-- Of two routes with the same metric, the more recent one is found. -/
theorem routeTable_best_lan : IsRun (RouteAddStep lanRoutes 1) clearedHeap lanAdds ∧
    Holds 1 (last clearedHeap lanAdds) [4, 2] ∧
    ∃ fuel rt, bestRoute lanRoutes 1 fuel (last clearedHeap lanAdds) 0xC0A80001 = some rt ∧
      BestRoute lanRoutes [2, 4] 0xC0A80001 rt := by
  have hrun : IsRun (RouteAddStep lanRoutes 1) clearedHeap lanAdds :=
    ⟨⟨0, rfl⟩, ⟨1, rfl⟩, ⟨1, rfl⟩, trivial⟩
  obtain ⟨hholds, -, -, -, hlookup⟩ := routeTable_best rfl hrun (by decide) (by decide)
  obtain ⟨fuel, rt, hrt, hiff, hbest⟩ := hlookup 0xC0A80001
  refine ⟨hrun, hholds, fuel, rt, hrt, hbest fun hnull ↦ ?_⟩
  exact hiff.mp hnull 2 (by decide) (by decide)

end Ertos
