import Ertos.Sys.List
import Mathlib.Data.Int.Notation

/-!
# The routing table

The routes of `net/trans/ip.c` are kept on an intrusive list whose head is `en_ip_route_list`.
`en_ip_route_add` refuses a route whose destination, netmask and interface are already present, and
otherwise inserts it behind the head; `en_ip_route_del` is `list_remove`. The objects themselves
never change, so the table in memory is a list heap together with a fixed map from addresses to
routes.

A step on the routing table is a step on the underlying list, or nothing at all. The run law of the
list therefore carries over: a deletion removes exactly its route when that route is the first of
the table, and only then.
-/

namespace Ertos

open Linked Transition

/-- `struct en_ip_route`, less its list node. -/
structure EnIpRoute where
  dst : UInt32
  netmask : UInt32
  gw : UInt32
  flags : UInt8
  metric : UInt8
  ethIf : Ptr
  deriving DecidableEq

/-- The test of `en_ip_route_add`: the same destination, netmask and interface. -/
def EnIpRoute.same (rt newrt : EnIpRoute) : Bool :=
  rt.dst = newrt.dst && rt.netmask = newrt.netmask && rt.ethIf = newrt.ethIf

/-- The search loop of `en_ip_route_add`, started at `p`. -/
def routeExists (route : Ptr → EnIpRoute) (h : ListHeap) (newrt : Ptr) : ℕ → Ptr → Option Bool
  | 0, p => if p = NULL then some false else none
  | fuel + 1, p =>
    if p = NULL then some false
    else if (route p).same (route newrt) then some true
    else routeExists route h newrt fuel (h.next p)

/-- The return code and the list afterwards, or `none` if the search did not end within `fuel`. -/
def enIpRouteAdd (route : Ptr → EnIpRoute) (head : Ptr) (fuel : ℕ) (h : ListHeap) (newrt : Ptr) :
    Option (ℤ × ListHeap) :=
  (routeExists route h newrt fuel (h.next head)).map fun found ↦
    if found then (-1, h) else (0, listAddAfter h head newrt)

def enIpRouteDel (h : ListHeap) (rt : Ptr) : ListHeap := listRemove h rt

/-! ## Runs on the table -/

inductive RouteOp
  | add (newrt : Ptr)
  | del (rt : Ptr)

/-- One `en_ip_route_add` of an object that is not linked, or one `en_ip_route_del` of a route of
the table. The members change only when the addition returned `0`. -/
inductive RouteStep (head : Ptr) (route : Ptr → EnIpRoute) :
    ListState → RouteOp → ListState → Prop
  | add {s : ListState} {newrt : Ptr} {fuel : ℕ} {rc : ℤ} {h : ListHeap} :
      newrt ≠ NULL → newrt ≠ head → newrt ∉ s.members →
      enIpRouteAdd route head fuel s.heap newrt = some (rc, h) →
      RouteStep head route s (.add newrt) ⟨h, if rc = 0 then newrt :: s.members else s.members⟩
  | del {s : ListState} {rt : Ptr} : rt ∈ s.members →
      RouteStep head route s (.del rt) ⟨enIpRouteDel s.heap rt, s.members.erase rt⟩

/-- A deletion takes the route the table's head points at. -/
def DeletesFirst (head : Ptr) (s : ListState) : RouteOp → Prop
  | .add _ => True
  | .del rt => s.heap.next head = rt

/-- A step on the table leaves the list alone, or is the corresponding list operation. -/
theorem RouteStep.list_step {head : Ptr} {route : Ptr → EnIpRoute} {s t : ListState} {o : RouteOp}
    (h : RouteStep head route s o t) :
    (t = s ∧ DeletesFirst head s o) ∨
      ∃ o', ListStep head s o' t ∧ (RemovesFirst head s o' ↔ DeletesFirst head s o) := by
  cases h with
  | @add newrt fuel rc h hnull hhead hmem hadd =>
    obtain ⟨found, -, heq⟩ := Option.map_eq_some_iff.mp hadd
    cases found with
    | true =>
      obtain ⟨rfl, rfl⟩ := Prod.mk.inj heq
      exact Or.inl ⟨rfl, trivial⟩
    | false =>
      obtain ⟨rfl, rfl⟩ := Prod.mk.inj heq
      exact Or.inr ⟨.add newrt, .add hnull hhead hmem, Iff.rfl⟩
  | @del rt hmem => exact Or.inr ⟨.remove rt, .remove hmem, Iff.rfl⟩

theorem always_visits_routes_iff {head : Ptr} (hhead : head ≠ NULL) (route : Ptr → EnIpRoute)
    {h : ListHeap} (hnext : h.next head = NULL) {r : List (RouteOp × ListState)}
    (hrun : IsRun (RouteStep head route) ⟨h, []⟩ r) :
    Always (Visits head) ⟨h, []⟩ r ↔ Guarded (DeletesFirst head) ⟨h, []⟩ r := by
  refine always_iff_guarded (I := ListInv head) (fun _ hs ↦ hs.visits) ?_ ?_
    (ListInv.init hnext) hrun
  · intro s o t hs ho hst
    rcases hst.list_step with ⟨rfl, -⟩ | ⟨o', hst', hiff⟩
    · exact hs
    · exact hs.step hhead (hiff.mpr ho) hst'
  · intro s o t hs ho hst
    rcases hst.list_step with ⟨-, hdel⟩ | ⟨o', hst', hiff⟩
    · exact absurd hdel ho
    · exact hs.not_visits_of_step hhead (fun hr ↦ ho (hiff.mp hr)) hst'

/-- **The intrusive list and the routing table.** From an empty head, along every run of additions
and removals, the traversal visits exactly the members if and only if every removal took the first
member; and the same for runs of `en_ip_route_add` and `en_ip_route_del`. -/
theorem list_remove_exact_iff {head : Ptr} (hhead : head ≠ NULL) {h : ListHeap}
    (hnext : h.next head = NULL) :
    (∀ r, IsRun (ListStep head) ⟨h, []⟩ r →
      (Always (Visits head) ⟨h, []⟩ r ↔ Guarded (RemovesFirst head) ⟨h, []⟩ r)) ∧
    (∀ route r, IsRun (RouteStep head route) ⟨h, []⟩ r →
      (Always (Visits head) ⟨h, []⟩ r ↔ Guarded (DeletesFirst head) ⟨h, []⟩ r)) :=
  ⟨fun _ hrun ↦ always_visits_iff hhead hnext hrun,
    fun route _ hrun ↦ always_visits_routes_iff hhead route hnext hrun⟩

/-- A head at address `1` in a memory of cleared nodes. -/
def clearedHeap : ListHeap := fun _ ↦ ⟨NULL, NULL⟩

/-- Members `2`, `3` and `4` are added in this order. -/
def threeAdded : ListHeap := listAddAfter (listAddAfter (listAddAfter clearedHeap 1 2) 1 3) 1 4

/-- The additions, followed by the removal of `y`. -/
def threeAddedThenRemove (y : Ptr) : List (ListOp × ListState) :=
  [(.add 2, ⟨listAddAfter clearedHeap 1 2, [2]⟩),
    (.add 3, ⟨listAddAfter (listAddAfter clearedHeap 1 2) 1 3, [3, 2]⟩),
    (.add 4, ⟨threeAdded, [4, 3, 2]⟩),
    (.remove y, ⟨listRemove threeAdded y, [4, 3, 2].erase y⟩)]

private theorem isRun_threeAddedThenRemove {y : Ptr} (hy : y ∈ [4, 3, 2]) :
    IsRun (ListStep 1) ⟨clearedHeap, []⟩ (threeAddedThenRemove y) :=
  ⟨.add (by decide) (by decide) (by decide), .add (by decide) (by decide) (by decide),
    .add (by decide) (by decide) (by decide), .remove hy, trivial⟩

theorem list_remove_exact_first :
    Always (Visits 1) ⟨clearedHeap, []⟩ (threeAddedThenRemove 4) ↔
      Guarded (RemovesFirst 1) ⟨clearedHeap, []⟩ (threeAddedThenRemove 4) :=
  (list_remove_exact_iff (by decide) rfl).1 _ (isRun_threeAddedThenRemove (by decide))

/-- Removing `3`, the middle member, loses `4` as well. -/
theorem list_remove_loses_first :
    IsRun (ListStep 1) ⟨clearedHeap, []⟩ (threeAddedThenRemove 3) ∧
      ¬Always (Visits 1) ⟨clearedHeap, []⟩ (threeAddedThenRemove 3) := by
  have hrun := isRun_threeAddedThenRemove (y := 3) (by decide)
  refine ⟨hrun, fun h ↦ ?_⟩
  obtain ⟨-, -, -, hfirst, -⟩ := (always_visits_iff (by decide) rfl hrun).mp h
  exact absurd hfirst (by unfold RemovesFirst; decide)

end Ertos
