import Ertos.Basis.Arm
import Mathlib.Data.Nat.Bitwise

/-!
# Section translation

The part of the ARM memory management unit that a table of sections uses. The table has a word for
each of the 4096 sections of a megabyte; the top twelve bits of an address select the word, and the
word either is no descriptor or gives the top twelve bits of the physical address and who may use
it.

A `SectionMap` is what a table is for: the frame and the permission of each section. `Shows` says
that a table in memory has that meaning, and `translate_eq` that the walk of the unit then answers
as the map does. A processor whose unit is switched on changes the table through the table, so that
a change needs `SelfMapped`; `Shows.remap` is the change.
-/

namespace Arm

/-! ## The unit -/

structure Access where
  user : Bool
  write : Bool

inductive Abort where
  | translation
  | domain
  | permission
  /-- The descriptor is of a second table. -/
  | secondLevel
deriving DecidableEq

/-- `AP`, with the bits `S` and `R` of the control register clear. -/
def Access.allowed (x : Access) (ap : UInt32) : Bool :=
  if ap = 0 then false
  else if ap = 1 then !x.user
  else if ap = 2 then !x.user || !x.write
  else true

/-- The walk for an address: `ttb` is the base of the table, `dacr` has two bits for each domain. -/
def translate (m : Ram) (ttb dacr : UInt32) (x : Access) (a : UInt32) : Except Abort UInt32 :=
  let e := m (word ttb (a >>> 20).toNat)
  let phys := (e &&& 0xFFF00000) ||| (a &&& 0x000FFFFF)
  let dom := (dacr >>> ((2 : UInt32) * ((e >>> 5) &&& 0xF))) &&& 3
  if e &&& 3 = 0 then .error .translation
  else if e &&& 3 = 2 then
    if dom = 3 then .ok phys
    else if dom = 1 then
      if x.allowed ((e >>> 10) &&& 3) then .ok phys else .error .permission
    else .error .domain
  else .error .secondLevel

/-- A store of a mode. -/
def storeVia (m : Ram) (ttb dacr : UInt32) (user : Bool) (a w : UInt32) : Except Abort Ram :=
  (translate m ttb dacr ⟨user, true⟩ a).map fun p ↦ Function.update m p w

/-! ## Maps -/

/-- A section that is mapped. The system may always use it. -/
structure Section where
  frame : Fin 4096
  user : Bool
deriving DecidableEq

abbrev SectionMap := Fin 4096 → Option Section

/-- The section of an address. -/
def sectionOf (a : UInt32) : Fin 4096 :=
  ⟨a.toNat / 2 ^ 20, by have := a.toNat_lt; omega⟩

/-- An address by its section and its offset. -/
def sectionAddr (s : Fin 4096) (offset : ℕ) : UInt32 := UInt32.ofNat (s * 2 ^ 20 + offset)

def SectionMap.resolve (f : SectionMap) (x : Access) (a : UInt32) : Except Abort UInt32 :=
  match f (sectionOf a) with
  | none => .error .translation
  | some s =>
    if x.user && !s.user then .error .permission
    else .ok (sectionAddr s.frame (a.toNat % 2 ^ 20))

/-- The word of the table describes a section, or nothing. -/
def Describes (dacr e : UInt32) : Option Section → Prop
  | none => e &&& 3 = 0
  | some s => e &&& 3 = 2 ∧ (dacr >>> ((2 : UInt32) * ((e >>> 5) &&& 0xF))) &&& 3 = 1 ∧
      (e >>> 10) &&& 3 = (if s.user then 3 else 1) ∧ sectionOf e = s.frame

/-- The table in memory means the map. -/
def Shows (m : Ram) (ttb dacr : UInt32) (f : SectionMap) : Prop :=
  ∀ s : Fin 4096, Describes dacr (m (word ttb s)) (f s)

/-- The table is mapped to where it is. -/
def SelfMapped (ttb : UInt32) (f : SectionMap) : Prop :=
  ∃ s, f (sectionOf ttb) = some s ∧ s.frame = sectionOf ttb

/-! ## Addresses -/

theorem toNat_sectionAddr (s : Fin 4096) {o : ℕ} (ho : o < 2 ^ 20) :
    (sectionAddr s o).toNat = s * 2 ^ 20 + o := by
  have hs := s.isLt
  rw [sectionAddr, UInt32.toNat_ofNat']
  omega

theorem sectionAddr_self (a : UInt32) : sectionAddr (sectionOf a) (a.toNat % 2 ^ 20) = a := by
  apply UInt32.toNat_inj.mp
  rw [toNat_sectionAddr _ (Nat.mod_lt _ (Nat.two_pow_pos 20)), sectionOf]
  exact Nat.div_add_mod' _ _

theorem toNat_and_sectionMask (e : UInt32) :
    (e &&& 0xFFF00000).toNat = e.toNat / 2 ^ 20 * 2 ^ 20 := by
  have hmask : (0xFFF00000 : UInt32).toNat = (2 ^ 12 - 1) * 2 ^ 20 := rfl
  rw [UInt32.toNat_and, hmask]
  apply Nat.eq_of_testBit_eq
  intro i
  rw [Nat.testBit_and, Nat.testBit_mul_two_pow, Nat.testBit_mul_two_pow,
    Nat.testBit_two_pow_sub_one, Nat.testBit_div_two_pow]
  by_cases hi : 20 ≤ i
  · rw [Nat.sub_add_cancel hi]
    by_cases hi' : i - 20 < 12
    · simp [hi, hi']
    · have hbit : e.toNat.testBit i = false :=
        Nat.testBit_lt_two_pow (e.toNat_lt.trans_le (Nat.pow_le_pow_right Nat.two_pos (by omega)))
      simp [hbit]
  · simp [hi]

theorem toNat_and_offsetMask (a : UInt32) : (a &&& 0x000FFFFF).toNat = a.toNat % 2 ^ 20 := by
  rw [UInt32.toNat_and]
  exact Nat.and_two_pow_sub_one_eq_mod a.toNat 20

theorem toNat_sectionMask_or (e : UInt32) {w : UInt32} (hw : w.toNat < 2 ^ 20) :
    ((e &&& 0xFFF00000) ||| w).toNat = e.toNat / 2 ^ 20 * 2 ^ 20 + w.toNat := by
  rw [UInt32.toNat_or, toNat_and_sectionMask, mul_comm, ← Nat.two_pow_add_eq_or_of_lt hw]

theorem and_or_and_eq (e a : UInt32) :
    (e &&& 0xFFF00000) ||| (a &&& 0x000FFFFF) = sectionAddr (sectionOf e) (a.toNat % 2 ^ 20) := by
  have ho : a.toNat % 2 ^ 20 < 2 ^ 20 := Nat.mod_lt _ (Nat.two_pow_pos 20)
  apply UInt32.toNat_inj.mp
  rw [toNat_sectionAddr _ ho, toNat_sectionMask_or _ (by rwa [toNat_and_offsetMask]),
    toNat_and_offsetMask]
  rfl

theorem toNat_shiftRight_twenty (a : UInt32) : (a >>> 20).toNat = sectionOf a :=
  Nat.shiftRight_eq_div_pow a.toNat 20

/-! ## The walk and the map -/

section Walk

variable {m : Ram} {ttb dacr : UInt32} {f : SectionMap}

theorem Access.allowed_eq (x : Access) (u : Bool) :
    x.allowed (if u then 3 else 1) = (!x.user || u) := by
  cases u
  · exact (Bool.or_false _).symm
  · exact (Bool.or_true _).symm

theorem translate_eq (h : Shows m ttb dacr f) (x : Access) (a : UInt32) :
    translate m ttb dacr x a = f.resolve x a := by
  have hs := h (sectionOf a)
  rw [translate, SectionMap.resolve, toNat_shiftRight_twenty]
  cases hf : f (sectionOf a) with
  | none =>
    rw [hf] at hs
    exact if_pos hs
  | some s =>
    rw [hf] at hs
    obtain ⟨htype, hdom, hap, hframe⟩ := hs
    have htype' : ¬ (2 : UInt32) = 0 := by decide
    have hdom' : ¬ (1 : UInt32) = 3 := by decide
    simp only [htype, hdom, hap, htype', hdom', and_or_and_eq, hframe, Access.allowed_eq, if_true,
      if_false]
    cases x.user <;> cases s.user <;> rfl

/-- A user is let into the sections for users, the system into all that are mapped. -/
theorem SectionMap.resolve_eq_ok_iff {x : Access} {a p : UInt32} :
    f.resolve x a = .ok p ↔
      ∃ s, f (sectionOf a) = some s ∧ (x.user = true → s.user = true) ∧
        p = sectionAddr s.frame (a.toNat % 2 ^ 20) := by
  rw [SectionMap.resolve]
  cases f (sectionOf a) with
  | none => exact ⟨nofun, fun ⟨s, hs, _⟩ ↦ nomatch hs⟩
  | some s =>
    have hiff : (x.user && !s.user) = true ↔ ¬ (x.user = true → s.user = true) := by
      cases x.user <;> cases s.user <;> decide
    by_cases hdenied : (x.user && !s.user) = true
    · have hno := hiff.mp hdenied
      simp only [hdenied, if_true]
      exact ⟨nofun, fun ⟨t, ht, hu, _⟩ ↦ absurd (Option.some.inj ht ▸ hu) hno⟩
    · have hyes := not_not.mp (mt hiff.mpr hdenied)
      simp only [hdenied, Bool.false_eq_true, if_false]
      refine ⟨fun h ↦ ⟨s, rfl, hyes, (Except.ok.inj h).symm⟩, ?_⟩
      rintro ⟨t, ht, -, rfl⟩
      rw [Option.some.inj ht]

theorem SectionMap.resolve_error {x : Access} {a : UInt32} {e : Abort}
    (h : f.resolve x a = .error e) : e = .translation ∨ e = .permission := by
  rw [SectionMap.resolve] at h
  cases hf : f (sectionOf a) with
  | none =>
    rw [hf] at h
    exact .inl (Except.error.inj h).symm
  | some s =>
    rw [hf] at h
    by_cases hdenied : (x.user && !s.user) = true
    · exact .inr (Except.error.inj ((if_pos hdenied).symm.trans h)).symm
    · exact nomatch (if_neg hdenied).symm.trans h

theorem sectionOf_word (httb : ttb.toNat % 2 ^ 14 = 0) (s : Fin 4096) :
    sectionOf (word ttb s) = sectionOf ttb := by
  have hs := s.isLt
  have hlt := ttb.toNat_lt
  have hword : (word ttb s).toNat = ttb.toNat + 4 * s := by
    rw [word, UInt32.toNat_add, toNat_four_mul (by omega)]
    omega
  rw [sectionOf, sectionOf, Fin.mk.injEq, hword]
  omega

theorem field_congr {e e' k mask : UInt32} (w : ℕ) (hmask : mask.toNat = 2 ^ w - 1)
    (hk : k.toNat + w ≤ 20) (hlow : e'.toNat % 2 ^ 20 = e.toNat % 2 ^ 20) :
    (e' >>> k) &&& mask = (e >>> k) &&& mask := by
  have hfield (a : UInt32) : ((a >>> k) &&& mask).toNat =
      a.toNat % 2 ^ 20 % (2 ^ k.toNat * 2 ^ w) / 2 ^ k.toNat := by
    have hk' : k.toNat % 32 = k.toNat := Nat.mod_eq_of_lt (by omega)
    have hdvd : 2 ^ k.toNat * 2 ^ w ∣ 2 ^ 20 := by
      rw [← pow_add]
      exact Nat.pow_dvd_pow 2 hk
    rw [UInt32.toNat_and, hmask, Nat.and_two_pow_sub_one_eq_mod, UInt32.toNat_shiftRight, hk',
      Nat.shiftRight_eq_div_pow, Nat.mod_mod_of_dvd _ hdvd, Nat.mod_mul_right_div_self]
  rw [← UInt32.toNat_inj, hfield, hfield, hlow]

theorem Describes.of_low {e e' : UInt32} {s : Section} (h : Describes dacr e (some s))
    (hlow : e'.toNat % 2 ^ 20 = e.toNat % 2 ^ 20) :
    Describes dacr e' (some ⟨sectionOf e', s.user⟩) := by
  have htype : e' &&& 3 = e &&& 3 := field_congr (k := 0) 2 rfl (by decide) hlow
  have hdom : (e' >>> 5) &&& (0xF : UInt32) = (e >>> 5) &&& 0xF :=
    field_congr 4 rfl (by decide) hlow
  have hap : (e' >>> 10) &&& (3 : UInt32) = (e >>> 10) &&& 3 := field_congr 2 rfl (by decide) hlow
  obtain ⟨htype', hdom', hap', -⟩ := h
  exact ⟨htype.trans htype', by rw [hdom, hdom'], hap.trans hap', rfl⟩

theorem resolve_word {t : Section} {u : Bool} (ht : f (sectionOf ttb) = some t)
    (hframe : t.frame = sectionOf ttb) (hu : u = true → t.user = true)
    (httb : ttb.toNat % 2 ^ 14 = 0) (s : Fin 4096) :
    f.resolve ⟨u, true⟩ (word ttb s) = .ok (word ttb s) := by
  refine SectionMap.resolve_eq_ok_iff.mpr ⟨t, by rwa [sectionOf_word httb], hu, ?_⟩
  rw [hframe, ← sectionOf_word httb s, sectionAddr_self]

theorem Shows.update (h : Shows m ttb dacr f) {s : Fin 4096} {e : UInt32} {d : Option Section}
    (he : Describes dacr e d) :
    Shows (Function.update m (word ttb s) e) ttb dacr (Function.update f s d) := by
  intro t
  by_cases ht : t = s
  · rwa [ht, Function.update_self, Function.update_self]
  · have hword : word ttb t ≠ word ttb s := fun hw ↦
      ht (Fin.ext (word_inj (by omega) (by omega) hw))
    rw [Function.update_of_ne ht, Function.update_of_ne hword]
    exact h t

theorem Shows.congr (h : Shows m ttb dacr f) {g : SectionMap} (hg : ∀ s, g s = f s) :
    Shows m ttb dacr g := by
  rwa [funext hg]

theorem Shows.update_behind (h : Shows m ttb dacr f) {i : ℕ} (hi : 4096 ≤ i) (hi' : i < 2 ^ 30)
    (e : UInt32) : Shows (Function.update m (word ttb i) e) ttb dacr f := by
  intro t
  have hword : word ttb t ≠ word ttb i := fun hw ↦ by
    have := word_inj (by omega) hi' hw
    omega
  rw [Function.update_of_ne hword]
  exact h t

/-- The map in which `n` sections from `s` on are new. -/
def SectionMap.fill (f : SectionMap) (s n : ℕ) (d : ℕ → Section) : SectionMap := fun t ↦
  if s ≤ t ∧ t < s + n then some (d (t - s)) else f t

theorem Shows.fill (h : Shows m ttb dacr f) {s n : ℕ} (hn : s + n ≤ 4096) {e : ℕ → UInt32}
    {d : ℕ → Section} (he : ∀ i < n, Describes dacr (e i) (some (d i))) :
    Shows ((List.range n).foldl (fun m i ↦ Function.update m (word ttb (s + i)) (e i)) m) ttb dacr
      (f.fill s n d) := by
  induction n with
  | zero =>
    intro t
    rw [SectionMap.fill, if_neg (by omega)]
    exact h t
  | succ n ih =>
    rw [List.range_succ, List.foldl_concat]
    have hstep := (ih (by omega) fun i hi ↦ he i (Nat.lt_succ_of_lt hi)).update
      (s := ⟨s + n, by omega⟩) (he n n.lt_succ_self)
    intro t
    have ht := hstep t
    by_cases hts : t = ⟨s + n, by omega⟩
    · subst hts
      rw [SectionMap.fill, if_pos (by constructor <;> simp), Nat.add_sub_cancel_left,
        Function.update_self]
      exact he n n.lt_succ_self
    · have hne : (t : ℕ) ≠ s + n := fun h ↦ hts (Fin.ext h)
      rw [Function.update_of_ne hts, SectionMap.fill] at ht
      rw [SectionMap.fill]
      by_cases hin : s ≤ (t : ℕ) ∧ (t : ℕ) < s + n
      · rw [if_pos hin] at ht
        rwa [if_pos (by omega)]
      · rw [if_neg hin] at ht
        rwa [if_neg (by omega)]

theorem shows_zero (m : Ram) (ttb dacr : UInt32) :
    Shows (storeMany m ttb (List.replicate 4096 0)) ttb dacr fun _ ↦ none := by
  intro t
  have hword := storeMany_word (m := m) (a := ttb) (l := List.replicate 4096 0)
    (by rw [List.length_replicate]; decide) (i := t) (by rw [List.length_replicate]; exact t.isLt)
  rw [List.getElem_replicate] at hword
  rw [hword]
  exact UInt32.zero_and

/-- The table is changed through the table. -/
theorem Shows.store (h : Shows m ttb dacr f) {u : Bool} {s : Fin 4096} {e : UInt32}
    {d : Option Section} (hword : f.resolve ⟨u, true⟩ (word ttb s) = .ok (word ttb s))
    (he : Describes dacr e d) :
    ∃ m', storeVia m ttb dacr u (word ttb s) e = .ok m' ∧
      Shows m' ttb dacr (Function.update f s d) := by
  refine ⟨_, ?_, h.update he⟩
  rw [storeVia, translate_eq h, hword]
  rfl

/-- The system changes the table wherever it is mapped to itself. -/
theorem Shows.remap (h : Shows m ttb dacr f) (hself : SelfMapped ttb f)
    (httb : ttb.toNat % 2 ^ 14 = 0) {s : Fin 4096} {e : UInt32} {d : Option Section}
    (he : Describes dacr e d) :
    ∃ m', storeVia m ttb dacr false (word ttb s) e = .ok m' ∧
      Shows m' ttb dacr (Function.update f s d) := by
  obtain ⟨t, ht, hframe⟩ := hself
  exact h.store (resolve_word ht hframe (fun hu ↦ absurd hu Bool.false_ne_true) httb s) he

end Walk

end Arm
