import BochsOs.Library.Bytes

/-!
# Strings in memory

A C string is a run of bytes other than zero with a zero behind it.  `store m a s` puts bytes one
after the other into memory, as a program does that moves a pointer along; `StrAt m a s` says that
the string `s` stands at `a`.
-/

namespace ByteMemory

/-- The bytes of `s`, put at `a` one after the other. -/
def store (m : Bytes) : (a : ℕ) → List UInt8 → Bytes
  | _, [] => m
  | a, c :: s => store (Function.update m a c) (a + 1) s

/-- The string `s` stands at `a`. -/
structure StrAt (m : Bytes) (a : ℕ) (s : List UInt8) : Prop where
  bytes : ∀ i (hi : i < s.length), m (a + i) = s[i]
  nul : m (a + s.length) = 0
  nonzero : (0 : UInt8) ∉ s

/-- A memory that begins with the bytes of `s` and is zero behind them. -/
def image (s : List UInt8) : Bytes := fun i => s.getD i 0

section Store

variable {m : Bytes} {a x : ℕ} {s s' : List UInt8}

@[simp] theorem store_nil (m : Bytes) (a : ℕ) : store m a [] = m := rfl

theorem store_append (m : Bytes) (a : ℕ) (s s' : List UInt8) :
    store m a (s ++ s') = store (store m a s) (a + s.length) s' := by
  induction s generalizing m a with
  | nil => rfl
  | cons c s ih =>
      rw [List.cons_append, store, store, ih, List.length_cons]
      congr 1
      omega

/-- The other bytes stay as they are. -/
theorem store_outside (h : x < a ∨ a + s.length ≤ x) : store m a s x = m x := by
  induction s generalizing m a with
  | nil => rfl
  | cons c s ih =>
      rw [List.length_cons] at h
      rw [store, ih (by omega), Function.update_of_ne (by omega)]

theorem store_inside {i : ℕ} (hi : i < s.length) : store m a s (a + i) = s[i] := by
  induction s generalizing m a i with
  | nil => exact absurd hi (Nat.not_lt_zero i)
  | cons c s ih =>
      rw [store]
      cases i with
      | zero => rw [store_outside (by omega), Nat.add_zero, Function.update_self, List.getElem_cons_zero]
      | succ i =>
          rw [List.getElem_cons_succ, ← ih (m := Function.update m a c) (a := a + 1)
            (Nat.lt_of_succ_lt_succ hi)]
          congr 1
          omega

end Store

namespace StrAt

variable {m m' : Bytes} {a : ℕ} {s s' : List UInt8}

/-- A string is read up to its zero only. -/
theorem congr (h : StrAt m a s) (hm : ∀ i ≤ s.length, m' (a + i) = m (a + i)) : StrAt m' a s where
  bytes i hi := (hm i hi.le).trans (h.bytes i hi)
  nul := (hm _ le_rfl).trans h.nul
  nonzero := h.nonzero

theorem ne_zero (h : StrAt m a s) {i : ℕ} (hi : i < s.length) : m (a + i) ≠ 0 := by
  rw [h.bytes i hi]
  exact fun hzero => h.nonzero (hzero ▸ List.getElem_mem hi)

/-- The place of the first zero. -/
theorem zero_iff (h : StrAt m a s) {i : ℕ} (hi : i ≤ s.length) : m (a + i) = 0 ↔ i = s.length := by
  rcases Nat.lt_or_eq_of_le hi with hlt | heq
  · exact iff_of_false (h.ne_zero hlt) hlt.ne
  · rw [heq]
    exact iff_of_true h.nul rfl

theorem nil_iff : StrAt m a [] ↔ m a = 0 := by
  constructor
  · exact fun h => h.nul
  · exact fun h => ⟨fun i hi => absurd hi (Nat.not_lt_zero i), h, List.not_mem_nil⟩

theorem cons_iff {c : UInt8} : StrAt m a (c :: s) ↔ m a = c ∧ c ≠ 0 ∧ StrAt m (a + 1) s := by
  constructor
  · intro h
    refine ⟨h.bytes 0 (Nat.succ_pos _), fun hc => h.nonzero (hc ▸ List.mem_cons_self), fun i hi => ?_, ?_,
      fun hmem => h.nonzero (List.mem_cons_of_mem c hmem)⟩
    · rw [Nat.add_assoc, Nat.add_comm 1 i]
      exact h.bytes (i + 1) (Nat.succ_lt_succ hi)
    · rw [Nat.add_assoc, Nat.add_comm 1]
      exact h.nul
  · rintro ⟨hfirst, hc, h⟩
    refine ⟨fun i hi => ?_, ?_, fun hmem => ?_⟩
    · cases i with
      | zero => exact hfirst
      | succ i =>
          rw [List.getElem_cons_succ, ← h.bytes i (Nat.lt_of_succ_lt_succ hi), Nat.add_assoc,
            Nat.add_comm 1 i]
    · rw [List.length_cons, Nat.add_comm s.length 1, ← Nat.add_assoc]
      exact h.nul
    · rcases List.mem_cons.mp hmem with hzero | hmem
      · exact hc hzero.symm
      · exact h.nonzero hmem

/-- Two strings at one place are the same. -/
theorem unique (h : StrAt m a s) (h' : StrAt m a s') : s = s' := by
  induction s generalizing a s' with
  | nil =>
      cases s' with
      | nil => rfl
      | cons c s' =>
          obtain ⟨hc, hne, -⟩ := cons_iff.mp h'
          exact absurd ((nil_iff.mp h).symm.trans hc).symm hne
  | cons c s ih =>
      obtain ⟨hc, hne, hrest⟩ := cons_iff.mp h
      cases s' with
      | nil => exact absurd (hc.symm.trans (nil_iff.mp h')) hne
      | cons c' s' =>
          obtain ⟨hc', -, hrest'⟩ := cons_iff.mp h'
          rw [ih hrest hrest', hc.symm.trans hc']

/-- The end of a string is a string. -/
theorem drop (h : StrAt m a s) {i : ℕ} (hi : i ≤ s.length) : StrAt m (a + i) (s.drop i) := by
  refine ⟨fun j hj => ?_, ?_, fun hmem => h.nonzero (List.mem_of_mem_drop hmem)⟩
  · rw [List.length_drop] at hj
    rw [List.getElem_drop, Nat.add_assoc]
    exact h.bytes (i + j) (by omega)
  · rw [List.length_drop, show a + i + (s.length - i) = a + s.length by omega]
    exact h.nul

theorem dropWhile (h : StrAt m a s) (p : UInt8 → Bool) :
    StrAt m (a + (s.takeWhile p).length) (s.dropWhile p) := by
  have hsplit : (s.takeWhile p ++ s.dropWhile p).drop (s.takeWhile p).length = s.dropWhile p :=
    List.drop_left
  rw [List.takeWhile_append_dropWhile] at hsplit
  rw [← hsplit]
  exact h.drop (List.takeWhile_prefix p).length_le

/-- A string that has just been stored, with its zero. -/
theorem of_store (hs : (0 : UInt8) ∉ s) (hnul : store m a s (a + s.length) = 0) :
    StrAt (store m a s) a s :=
  ⟨fun _ hi => store_inside hi, hnul, hs⟩

theorem image_nul (hs : (0 : UInt8) ∉ s) : StrAt (image s) 0 s := by
  refine ⟨fun i hi => ?_, ?_, hs⟩
  · rw [image, Nat.zero_add, List.getD_eq_getElem?_getD, List.getElem?_eq_getElem hi, Option.getD_some]
  · rw [image, Nat.zero_add, List.getD_eq_getElem?_getD, List.getElem?_eq_none le_rfl, Option.getD_none]

/-- A string stored with its zero. -/
theorem store_nul (m : Bytes) (a : ℕ) (hs : (0 : UInt8) ∉ s) : StrAt (store m a (s ++ [0])) a s := by
  refine ⟨fun i hi => ?_, ?_, hs⟩
  · rw [store_inside (by rw [List.length_append]; omega), List.getElem_append_left]
  · rw [store_inside (by rw [List.length_append, List.length_singleton]; omega),
      List.getElem_concat_length rfl]

/-- A string behind which another one is stored. -/
theorem store_append_nul (h : StrAt m a s) (hs' : (0 : UInt8) ∉ s') :
    StrAt (store m (a + s.length) (s' ++ [0])) a (s ++ s') := by
  have hback : StrAt (store m (a + s.length) (s' ++ [0])) (a + s.length) s' := store_nul m _ hs'
  refine ⟨fun i hi => ?_, ?_, fun hmem => (List.mem_append.mp hmem).elim h.nonzero hs'⟩
  · rcases Nat.lt_or_ge i s.length with hlt | hge
    · rw [List.getElem_append_left hlt, store_outside (Or.inl (by omega)), h.bytes i hlt]
    · obtain ⟨j, rfl⟩ := Nat.exists_eq_add_of_le hge
      rw [List.length_append] at hi
      rw [List.getElem_append_right hge, ← Nat.add_assoc, hback.bytes j (by omega)]
      congr 1
      omega
  · rw [List.length_append, ← Nat.add_assoc]
    exact hback.nul

/-- A string cut off with a zero. -/
theorem take (h : StrAt m a s) {i : ℕ} (hi : i ≤ s.length) :
    StrAt (Function.update m (a + i) 0) a (s.take i) := by
  refine ⟨fun j hj => ?_, ?_, fun hmem => h.nonzero (List.mem_of_mem_take hmem)⟩
  · rw [List.length_take] at hj
    rw [Function.update_of_ne (by omega), List.getElem_take, h.bytes j (by omega)]
  · rw [List.length_take, Nat.min_eq_left hi, Function.update_self]

theorem takeWhile (h : StrAt m a s) (p : UInt8 → Bool) :
    StrAt (Function.update m (a + (s.takeWhile p).length) 0) a (s.takeWhile p) := by
  have hcut := h.take (List.takeWhile_prefix p).length_le
  rwa [← List.prefix_iff_eq_take.mp (List.takeWhile_prefix p)] at hcut

end StrAt

end ByteMemory
