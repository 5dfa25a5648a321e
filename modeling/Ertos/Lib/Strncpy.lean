import Ertos.Lib.Memory
import Ertos.Lib.String
import Mathlib.Data.List.GetD

/-!
# Copying a string of bounded length

`strncpy` of `lib/string.c`. Its first loop copies up to the terminating NUL, but does not count the
round that copies the NUL itself, and its second loop pads with as many NULs as the count has left.
So a string that is shorter than `n` takes `n + 1` stores, and the last one is behind the
destination. `do_spawn` copies the name of a process in this way, and the store goes to the field
behind the name.
-/

namespace Ertos

open Copy

/-! ## The loops -/

/-- The memory and the variables of `strncpy`, and the addresses of its stores so far. -/
structure Strncpy where
  mem : Memory
  dest : UInt32
  n : UInt32
  stores : List UInt32

namespace Strncpy

/-- `*dest++ = c`. -/
def store (t : Strncpy) (c : UInt8) : Strncpy :=
  { t with
    mem := Function.update t.mem t.dest c
    dest := t.dest + 1
    stores := t.stores ++ [t.dest] }

/-- The first loop. -/
def copy (t : Strncpy) (src : UInt32) : Strncpy :=
  let s := t.store (t.mem src)
  if s.mem src ≠ 0 then
    if 0 < t.n - 1 then copy { s with n := t.n - 1 } (src + 1) else { s with n := t.n - 1 }
  else s
termination_by (t.n - 1).toNat
decreasing_by
  rename_i hpos
  have hone : (1 : UInt32) ≤ t.n - 1 := UInt32.le_iff_toNat_le.mpr (UInt32.lt_iff_toNat_lt.mp hpos)
  show (t.n - 1 - 1).toNat < (t.n - 1).toNat
  rw [UInt32.toNat_sub_of_le _ _ hone]
  have hpos' := UInt32.lt_iff_toNat_lt.mp hpos
  have hzero : (0 : UInt32).toNat = 0 := rfl
  have hone' : (1 : UInt32).toNat = 1 := rfl
  omega

/-- The second loop, of `k` rounds. -/
def padding : ℕ → Strncpy → Strncpy
  | 0, t => t
  | k + 1, t => padding k (t.store 0)

/-- Both loops. -/
def finish (t : Strncpy) (src : UInt32) : Strncpy := padding (t.copy src).n.toNat (t.copy src)

end Strncpy

def strncpy (m : Memory) (dest src n : UInt32) : Strncpy := Strncpy.finish ⟨m, dest, n, []⟩ src

/-! ## The law and its condition -/

/-- The string is in memory, at `p`. -/
def CString.At (s : CString) (m : Memory) (p : UInt32) : Prop :=
  ∀ i ≤ s.chars.length, m (byteAt p i) = s.chars.getD i 0

/-- The stores go to the `n` bytes of the destination and to no others; these become the first `n`
bytes of the string, with NULs behind it if it is shorter, and no other byte changes. -/
structure StrncpyLaw (m : Memory) (dest src n : UInt32) (s : CString) : Prop where
  stores : ∀ a, a ∈ (strncpy m dest src n).stores ↔ ∃ i < n.toNat, a = byteAt dest i
  copied : ∀ i < n.toNat, (strncpy m dest src n).mem (byteAt dest i) = s.chars.getD i 0
  frame : ∀ a, (∀ i < n.toNat, a ≠ byteAt dest i) → (strncpy m dest src n).mem a = m a

/-! ## One round -/

namespace Strncpy

variable {t : Strncpy} {src : UInt32}

/-- The byte that is copied is what the loop then looks at, also if it was copied onto itself. -/
theorem store_mem_src (t : Strncpy) (src : UInt32) :
    (t.store (t.mem src)).mem src = t.mem src := by
  show Function.update t.mem t.dest (t.mem src) src = t.mem src
  rw [Function.update_apply]
  split_ifs
  · rfl
  · rfl

/-- How `strncpy` goes on, with at least one byte to go. -/
inductive Finish (t : Strncpy) (src : UInt32) : Strncpy → Prop
  /-- The NUL was copied, which is not counted. -/
  | nul (hc : t.mem src = 0) : Finish t src (padding t.n.toNat (t.store 0))
  /-- All bytes are written. -/
  | full (hc : t.mem src ≠ 0) (hn : t.n.toNat = 1) :
      Finish t src { t.store (t.mem src) with n := 0 }
  | more (hc : t.mem src ≠ 0) {s : Strncpy} (hs : s = { t.store (t.mem src) with n := t.n - 1 })
      (hn : s.n.toNat + 1 = t.n.toNat) (hpos : 0 < s.n.toNat) :
      Finish t src (finish s (src + 1))

theorem finish_spec (hn : 0 < t.n.toNat) : Finish t src (finish t src) := by
  have hread := store_mem_src t src
  by_cases hc : t.mem src = 0
  · have hcopy : t.copy src = t.store 0 := by
      rw [hc] at hread
      rw [copy]
      simp only [hc, hread, ne_eq, not_true_eq_false, if_false]
    rw [finish, hcopy]
    exact .nul hc
  have hsub : (t.n - 1).toNat = t.n.toNat - 1 :=
    UInt32.toNat_sub_of_le _ _ (UInt32.le_iff_toNat_le.mpr hn)
  by_cases hmore : 0 < t.n - 1
  · have hcopy : t.copy src = copy { t.store (t.mem src) with n := t.n - 1 } (src + 1) := by
      rw [copy]
      simp only [hread, hc, hmore, ne_eq, not_false_eq_true, if_true]
    have hpos : 0 < (t.n - 1).toNat := UInt32.lt_iff_toNat_lt.mp hmore
    have hfinish : finish t src = finish { t.store (t.mem src) with n := t.n - 1 } (src + 1) := by
      rw [finish, hcopy, finish]
    rw [hfinish]
    exact .more hc rfl (by show (t.n - 1).toNat + 1 = _; omega) hpos
  · have hzero : t.n - 1 = 0 := by
      rw [UInt32.pos_iff_ne_zero, not_not] at hmore
      exact hmore
    have hcopy : t.copy src = { t.store (t.mem src) with n := 0 } := by
      have hstop : ¬(0 : UInt32) < 0 := UInt32.lt_irrefl 0
      rw [copy]
      simp only [hread, hc, hzero, hstop, ne_eq, not_false_eq_true, if_true, if_false]
    rw [finish, hcopy]
    refine .full hc ?_
    rw [hzero] at hsub
    have hsub' : 0 = t.n.toNat - 1 := hsub
    omega

/-! ## What is stored, and where -/

/-- The addresses of `k` bytes from `p` on. -/
def addresses (p : UInt32) (k : ℕ) : List UInt32 := (List.range k).map (byteAt p)

theorem mem_addresses {p a : UInt32} {k : ℕ} : a ∈ addresses p k ↔ ∃ i < k, a = byteAt p i := by
  simp [addresses, eq_comm]

theorem addresses_succ (p : UInt32) (k : ℕ) :
    addresses p (k + 1) = addresses p k ++ [byteAt p k] := by
  simp [addresses, List.range_succ]

theorem cons_addresses (p : UInt32) (k : ℕ) : p :: addresses (p + 1) k = addresses p (k + 1) := by
  rw [addresses, addresses, List.range_succ_eq_map, List.map_cons, List.map_map, byteAt_zero]
  exact congrArg (p :: ·) (List.map_congr_left fun i _ ↦ (byteAt_succ p i).symm)

theorem padding_stores (k : ℕ) (t : Strncpy) :
    (padding k t).stores = t.stores ++ addresses t.dest k := by
  induction k generalizing t with
  | zero => exact (List.append_nil _).symm
  | succ k ih =>
    rw [padding, ih, ← cons_addresses, ← List.singleton_append, ← List.append_assoc]
    rfl

theorem padding_frame {k : ℕ} {a : UInt32} (h : ∀ i < k, a ≠ byteAt t.dest i) :
    (padding k t).mem a = t.mem a := by
  induction k generalizing t with
  | zero => rfl
  | succ k ih =>
    have hfirst : a ≠ t.dest := fun heq ↦ h 0 (Nat.succ_pos k) (heq.trans (byteAt_zero t.dest).symm)
    rw [padding, ih fun i hi ↦ (byteAt_succ t.dest i) ▸ h (i + 1) (Nat.succ_lt_succ hi)]
    exact Function.update_of_ne hfirst _ _

theorem padding_apply {k i : ℕ} (hk : k ≤ 2 ^ 32) (hi : i < k) :
    (padding k t).mem (byteAt t.dest i) = 0 := by
  induction k generalizing t i with
  | zero => exact absurd hi (Nat.not_lt_zero i)
  | succ k ih =>
    rw [padding]
    cases i with
    | zero =>
      have hframe : (padding k (t.store 0)).mem (byteAt t.dest 0) =
          (t.store 0).mem (byteAt t.dest 0) := by
        refine padding_frame fun i hi heq ↦ ?_
        have heq' : byteAt t.dest 0 = byteAt t.dest (i + 1) := heq.trans (byteAt_succ t.dest i).symm
        rw [byteAt_inj (by omega) (by omega)] at heq'
        exact absurd heq' (Nat.succ_ne_zero i).symm
      rw [hframe, byteAt_zero]
      exact Function.update_self _ _ _
    | succ i =>
      rw [byteAt_succ]
      exact ih (t := t.store 0) (by omega) (Nat.lt_of_succ_lt_succ hi)

theorem addresses_append (p : UInt32) (i j : ℕ) :
    addresses p i ++ addresses (byteAt p i) j = addresses p (i + j) := by
  simp only [addresses, List.range_add, List.map_append, List.map_map]
  congr 1
  exact List.map_congr_left fun k _ ↦ byteAt_byteAt p i k

theorem finish_frame {a : UInt32} (hn : 0 < t.n.toNat) (hfirst : a ≠ t.dest)
    (h : ∀ i < t.n.toNat, a ≠ byteAt (t.dest + 1) i) : (finish t src).mem a = t.mem a := by
  obtain ⟨n, hcount⟩ : ∃ n, n = t.n.toNat := ⟨_, rfl⟩
  induction n generalizing t src with
  | zero => omega
  | succ n ih =>
    have hstore : ∀ c, (t.store c).mem a = t.mem a := fun c ↦ Function.update_of_ne hfirst _ _
    have hspec : Finish t src (finish t src) := finish_spec hn
    generalize finish t src = r at hspec ⊢
    cases hspec with
    | nul =>
      have hpadding : (padding t.n.toNat (t.store 0)).mem a = (t.store 0).mem a := padding_frame h
      rw [hpadding, hstore]
    | full => exact hstore _
    | more _ hs hsn hpos =>
      have hdest := congrArg dest hs
      have hmem := congrArg mem hs
      have hnext : a ≠ t.dest + 1 := fun heq ↦ h 0 hn (heq.trans (byteAt_zero _).symm)
      rw [ih hpos (hdest ▸ hnext) ?_ (by omega), hmem]
      · exact hstore _
      · intro i hi
        rw [hdest]
        exact (byteAt_succ (t.dest + 1) i) ▸ h (i + 1) (by omega)

theorem finish_dest (hn : 0 < t.n.toNat) : (finish t src).mem t.dest = t.mem src := by
  have hlt := t.n.toNat_lt
  have hself : ∀ c, (t.store c).mem t.dest = c := fun c ↦ Function.update_self _ _ _
  have hne : ∀ i < t.n.toNat, t.dest ≠ byteAt (t.dest + 1) i := by
    intro i hi heq
    rw [← byteAt_succ] at heq
    nth_rewrite 1 [← byteAt_zero t.dest] at heq
    rw [byteAt_inj (by omega) (by omega)] at heq
    omega
  have hspec : Finish t src (finish t src) := finish_spec hn
  generalize finish t src = r at hspec ⊢
  cases hspec with
  | nul hc =>
    have hpadding : (padding t.n.toNat (t.store 0)).mem t.dest = (t.store 0).mem t.dest :=
      padding_frame hne
    rw [hpadding, hself, hc]
  | full => exact hself _
  | more _ hs hsn hpos =>
    have hdest := congrArg dest hs
    have hmem := congrArg mem hs
    have hnext : t.dest ≠ t.dest + 1 := fun heq ↦ hne 0 hn (heq.trans (byteAt_zero _).symm)
    rw [finish_frame hpos (hdest ▸ hnext), hmem]
    · exact hself _
    · intro i hi
      rw [hdest]
      exact (byteAt_succ (t.dest + 1) i) ▸ hne (i + 1) (by omega)

/-! ## Several rounds -/

/-- The state after `r` rounds of the first loop. -/
def rounds (m : Memory) (dest src n : UInt32) (r : ℕ) : Strncpy :=
  ⟨copyAll m (byteAt dest) (byteAt src) r, byteAt dest r, n - UInt32.ofNat r, addresses dest r⟩

variable {m : Memory} {dest n : UInt32} {r : ℕ}

theorem toNat_sub_ofNat (hr : r ≤ n.toNat) : (n - UInt32.ofNat r).toNat = n.toNat - r := by
  have hlt := n.toNat_lt
  have hofNat : (UInt32.ofNat r).toNat = r := by
    rw [UInt32.toNat_ofNat', Nat.mod_eq_of_lt (by omega)]
  rw [UInt32.toNat_sub_of_le _ _ (UInt32.le_iff_toNat_le.mpr (by omega)), hofNat]

theorem toNat_rounds (hr : r ≤ n.toNat) : (rounds m dest src n r).n.toNat = n.toNat - r :=
  toNat_sub_ofNat hr

theorem finish_rounds (hr : r < n.toNat) : Finish (rounds m dest src n r) (byteAt src r)
    (finish (rounds m dest src n r) (byteAt src r)) := by
  refine finish_spec ?_
  rw [toNat_rounds hr.le]
  exact Nat.sub_pos_of_lt hr

theorem store_rounds : (rounds m dest src n r).store ((rounds m dest src n r).mem (byteAt src r)) =
    { rounds m dest src n (r + 1) with n := n - UInt32.ofNat r } := by
  rw [rounds, store, rounds, addresses_succ, ← byteAt_add_one]
  rfl

theorem strncpy_eq_rounds
    (hread : ∀ i < r, copyAll m (byteAt dest) (byteAt src) i (byteAt src i) ≠ 0)
    (hr : r < n.toNat) : strncpy m dest src n = finish (rounds m dest src n r) (byteAt src r) := by
  induction r with
  | zero =>
    have hsub : n - UInt32.ofNat 0 = n := UInt32.sub_zero n
    rw [strncpy, rounds, byteAt_zero, byteAt_zero, hsub]
    rfl
  | succ r ih =>
    rw [ih (fun i hi ↦ hread i (Nat.lt_succ_of_lt hi)) (Nat.lt_of_succ_lt hr)]
    have hlt : r < n.toNat := Nat.lt_of_succ_lt hr
    have hspec : Finish (rounds m dest src n r) (byteAt src r) _ := finish_rounds hlt
    generalize finish (rounds m dest src n r) (byteAt src r) = t at hspec ⊢
    cases hspec with
    | nul hc => exact absurd hc (hread r (Nat.lt_succ_self r))
    | full _ hn =>
      rw [toNat_rounds hlt.le] at hn
      omega
    | more _ hs =>
      have hsub : n - UInt32.ofNat r - 1 = n - UInt32.ofNat (r + 1) := by
        have hofNat : UInt32.ofNat (r + 1) = UInt32.ofNat r + 1 := UInt32.ofNat_add r 1
        grind
      rw [hs, store_rounds, byteAt_add_one]
      show finish { rounds m dest src n (r + 1) with n := n - UInt32.ofNat r - 1 } _ = _
      rw [hsub]
      rfl

/-- A string that is shorter: there is one store too many, of a NUL. -/
theorem strncpy_of_nul
    (hread : ∀ i < r, copyAll m (byteAt dest) (byteAt src) i (byteAt src i) ≠ 0)
    (hnul : copyAll m (byteAt dest) (byteAt src) r (byteAt src r) = 0) (hr : r < n.toNat) :
    (strncpy m dest src n).stores = addresses dest (n.toNat + 1) ∧
      (strncpy m dest src n).mem (byteAt dest n.toNat) = 0 := by
  have hlt := n.toNat_lt
  have hspec : Finish (rounds m dest src n r) (byteAt src r) _ := finish_rounds hr
  rw [strncpy_eq_rounds hread hr]
  generalize finish (rounds m dest src n r) (byteAt src r) = t at hspec ⊢
  cases hspec with
  | nul =>
    rw [padding_stores, toNat_rounds hr.le]
    constructor
    · show addresses dest r ++ [byteAt dest r] ++ addresses (byteAt dest r + 1) (n.toNat - r) = _
      rw [← addresses_succ, byteAt_add_one, addresses_append]
      congr 1
      omega
    · have hlast : byteAt dest n.toNat =
          byteAt ((rounds m dest src n r).store 0).dest (n.toNat - r - 1) := by
        show _ = byteAt (byteAt dest r + 1) _
        rw [byteAt_add_one, byteAt_byteAt]
        congr 1
        omega
      rw [hlast]
      exact padding_apply (by omega) (by omega)
  | full hc => exact absurd hnul hc
  | more hc => exact absurd hnul hc

theorem strncpy_of_full
    (hread : ∀ i < n.toNat, copyAll m (byteAt dest) (byteAt src) i (byteAt src i) ≠ 0)
    (hn : 0 < n.toNat) : (strncpy m dest src n).stores = addresses dest n.toNat ∧
      (strncpy m dest src n).mem = copyAll m (byteAt dest) (byteAt src) n.toNat := by
  obtain ⟨r, hr⟩ : ∃ r, n.toNat = r + 1 := ⟨n.toNat - 1, by omega⟩
  have hlt : r < n.toNat := by omega
  have hspec : Finish (rounds m dest src n r) (byteAt src r) _ := finish_rounds hlt
  have hrounds : strncpy m dest src n = finish (rounds m dest src n r) (byteAt src r) :=
    strncpy_eq_rounds (fun i hi ↦ hread i (by omega)) hlt
  rw [hrounds, hr]
  generalize finish (rounds m dest src n r) (byteAt src r) = t at hspec ⊢
  cases hspec with
  | nul hc => exact absurd hc (hread r hlt)
  | full =>
    rw [store_rounds]
    exact ⟨rfl, rfl⟩
  | more _ _ hsn hpos =>
    rw [toNat_rounds hlt.le] at hsn
    omega

end Strncpy

/-! ## The theorem -/

section Law

variable {m : Memory} {dest src n : UInt32} {s : CString}

theorem byteAt_injOn {k : ℕ} (hk : k ≤ 2 ^ 32) :
    ∀ i < k, ∀ j < k, byteAt dest i = byteAt dest j → i = j :=
  fun _ hi _ hj ↦ (byteAt_inj (by omega) (by omega)).mp

theorem CString.At.ne_zero (hs : s.At m src) {i : ℕ} (hi : i < s.chars.length) :
    m (byteAt src i) ≠ 0 := by
  rw [hs i hi.le, List.getD_eq_getElem _ _ hi]
  exact s.ne_zero _ (List.getElem_mem hi)

theorem StrncpyLaw.reads (hs : s.At m src) (h : StrncpyLaw m dest src n s) {i : ℕ}
    (hi : i < n.toNat) (hle : i ≤ s.chars.length) :
    copyAll m (byteAt dest) (byteAt src) i (byteAt src i) = m (byteAt src i) := by
  induction i using Nat.strong_induction_on with
  | _ i ih =>
    have hread : ∀ j < i, copyAll m (byteAt dest) (byteAt src) j (byteAt src j) ≠ 0 := by
      intro j hj
      rw [ih j hj (hj.trans hi) (hj.le.trans hle)]
      exact hs.ne_zero (hj.trans_le hle)
    have hcount : (Strncpy.rounds m dest src n i).n.toNat = n.toNat - i :=
      Strncpy.toNat_rounds hi.le
    have hdest :
        (Strncpy.finish (Strncpy.rounds m dest src n i) (byteAt src i)).mem (byteAt dest i) =
          copyAll m (byteAt dest) (byteAt src) i (byteAt src i) := Strncpy.finish_dest (by omega)
    rw [← hdest, ← Strncpy.strncpy_eq_rounds hread hi, h.copied i hi, hs i hle]

/-- **Exactly `n` bytes.** For every memory and every string in it, wherever it lies, and every
positive `n`, `strncpy` stores to the `n` bytes of the destination and to no others, and these
become the first `n` bytes of the string, if and only if the string has at least `n` characters, and
none of them is overwritten with another one before it is read. -/
theorem strncpy_law_iff (hs : s.At m src) (hn : 0 < n) : StrncpyLaw m dest src n s ↔
    n.toNat ≤ s.chars.length ∧ Undisturbed m (byteAt dest) (byteAt src) n.toNat := by
  have hlt := n.toNat_lt
  have hpos : 0 < n.toNat := UInt32.lt_iff_toNat_lt.mp hn
  constructor
  · intro h
    have hle : n.toNat ≤ s.chars.length := by
      by_contra hshort
      rw [not_le] at hshort
      -- the NUL is reached, and the last NUL of the padding is stored behind the destination
      have hread : ∀ i < s.chars.length,
          copyAll m (byteAt dest) (byteAt src) i (byteAt src i) ≠ 0 := by
        intro i hi
        rw [h.reads hs (hi.trans hshort) hi.le]
        exact hs.ne_zero hi
      have hnul : copyAll m (byteAt dest) (byteAt src) s.chars.length
          (byteAt src s.chars.length) = 0 := by
        rw [h.reads hs hshort le_rfl, hs _ le_rfl]
        exact List.getD_eq_default _ _ le_rfl
      have hbehind : byteAt dest n.toNat ∈ (strncpy m dest src n).stores := by
        rw [(Strncpy.strncpy_of_nul hread hnul hshort).1, Strncpy.mem_addresses]
        exact ⟨n.toNat, Nat.lt_succ_self _, rfl⟩
      obtain ⟨i, hi, heq⟩ := (h.stores _).mp hbehind
      exact hi.ne (byteAt_injOn (by omega) n.toNat (Nat.lt_succ_self _) i (by omega) heq).symm
    exact ⟨hle, undisturbed_of_reads (byteAt_injOn (by omega)) fun i hi ↦ h.reads hs hi (by omega)⟩
  · rintro ⟨hle, hundisturbed⟩
    have hread : ∀ i < n.toNat, copyAll m (byteAt dest) (byteAt src) i (byteAt src i) ≠ 0 := by
      intro i hi
      rw [copyAll_eq (hundisturbed.of_le hi.le), hundisturbed.read hi]
      exact hs.ne_zero (hi.trans_le hle)
    obtain ⟨hstores, hmem⟩ := Strncpy.strncpy_of_full hread hpos
    rw [copyAll_eq hundisturbed] at hmem
    refine ⟨fun a ↦ ?_, fun i hi ↦ ?_, fun a ha ↦ ?_⟩
    · rw [hstores, Strncpy.mem_addresses]
    · rw [hmem, storeAll_apply (byteAt_injOn (by omega)) hi, hs i (by omega)]
    · rw [hmem]
      exact storeAll_of_forall_ne fun i hi heq ↦ ha i hi heq.symm

end Law

/-- A memory that holds the string `ab` at 0. -/
def abMemory : Memory := fun a ↦
  if a = 0 then 97 else if a = 1 then 98 else if a = 2 then 0 else 255

def abString : CString := ⟨[97, 98], ne_zero_of_all rfl⟩

theorem strncpy_law_iff_two : StrncpyLaw abMemory 100 0 2 abString := by
  refine (strncpy_law_iff (by unfold CString.At; decide) (by decide)).mpr ⟨by decide, ?_⟩
  unfold Undisturbed
  decide

/-! ## The name of a process -/

/-- The offset of `name` in `struct proc`. -/
def procName : ℕ := 164

/-- The offset of `event_mask`, which is behind `name`. -/
def procEventMask : ℕ := 180

/-- How `do_spawn` sets the name. -/
def spawnName (m : Memory) (proc name : UInt32) : Strncpy :=
  strncpy m (byteAt proc procName) name 16

/-- A name that leaves room for its NUL, and that is not in the structure itself, takes a store to
`event_mask`. -/
theorem spawnName_eventMask {m : Memory} {proc name : UInt32} {s : CString} (hs : s.At m name)
    (hlen : s.chars.length < 16)
    (happart : ∀ i < 17, ∀ j < 17, byteAt (byteAt proc procName) j ≠ byteAt name i) :
    byteAt proc procEventMask ∈ (spawnName m proc name).stores ∧
      (spawnName m proc name).mem (byteAt proc procEventMask) = 0 := by
  have hundisturbed : Undisturbed m (byteAt (byteAt proc procName)) (byteAt name) 17 :=
    fun i hi j hj hhit ↦ absurd hhit (happart i hi j (hj.trans hi))
  have hread : ∀ i < 17, copyAll m (byteAt (byteAt proc procName)) (byteAt name) i (byteAt name i) =
      m (byteAt name i) := by
    intro i hi
    rw [copyAll_eq (hundisturbed.of_le hi.le), hundisturbed.read hi]
  have hbehind : byteAt proc procEventMask = byteAt (byteAt proc procName) 16 :=
    (byteAt_byteAt proc procName 16).symm
  have hne : ∀ i < s.chars.length,
      copyAll m (byteAt (byteAt proc procName)) (byteAt name) i (byteAt name i) ≠ 0 := by
    intro i hi
    rw [hread i (by omega)]
    exact hs.ne_zero hi
  have hnul : copyAll m (byteAt (byteAt proc procName)) (byteAt name) s.chars.length
      (byteAt name s.chars.length) = 0 := by
    rw [hread _ (by omega), hs _ le_rfl]
    exact List.getD_eq_default _ _ le_rfl
  have hlen' : s.chars.length < (16 : UInt32).toNat := hlen
  obtain ⟨hstores, hmem⟩ := Strncpy.strncpy_of_nul hne hnul hlen'
  rw [hbehind]
  refine ⟨?_, hmem⟩
  rw [spawnName, hstores, Strncpy.mem_addresses]
  exact ⟨16, by decide, rfl⟩

/-- **The name `ab`** of a process takes seventeen stores, and the last one clears a byte of the
next field. -/
theorem strncpy_writes_behind : abString.At abMemory 0 ∧ ¬StrncpyLaw abMemory 100 0 16 abString ∧
    byteAt 100 16 ∈ (strncpy abMemory 100 0 16).stores ∧ abMemory (byteAt 100 16) = 255 ∧
    (strncpy abMemory 100 0 16).mem (byteAt 100 16) = 0 := by
  have hs : abString.At abMemory 0 := by
    unfold CString.At
    decide
  have hread : ∀ i < 2, copyAll abMemory (byteAt 100) (byteAt 0) i (byteAt 0 i) ≠ 0 := by decide
  have hlen : 2 < (16 : UInt32).toNat := by decide
  obtain ⟨hstores, hmem⟩ := Strncpy.strncpy_of_nul hread (by decide) hlen
  have hbehind : byteAt 100 16 ∈ (strncpy abMemory 100 0 16).stores := by
    rw [hstores]
    decide
  refine ⟨hs, fun h ↦ ?_, hbehind, by decide, hmem⟩
  obtain ⟨i, hi, heq⟩ := (h.stores _).mp hbehind
  have hi' : i < 16 := hi
  rw [byteAt_inj (by decide) (by omega)] at heq
  exact absurd heq hi'.ne'

end Ertos
