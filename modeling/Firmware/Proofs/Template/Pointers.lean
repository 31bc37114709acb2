import Firmware.Proofs.Template.Bounds
import Firmware.Template.Parse

/-!
# Pointers of a jump table

What a jump table gives to functions are the values of the whole pointers in its bytes (`pointers`), whichever digits
they are read from (`toOption_addDigits`). Values behind the last function are not looked at, and zeros make no
difference where functions still wait for a value: there is no table with them, and none without (`outcome`). Rows have
the pointers of their bytes in one piece where none of those that functions need is cut (`WholeCuts`).
-/

namespace Firmware

open List Hexadecimal

theorem toOption_bind {α β : Type} (x : Except Failure α) (f : α → Except Failure β) :
    (x >>= f).toOption = x.toOption >>= fun a => (f a).toOption := by
  cases x <;> rfl

/-! ## Whole rows -/

namespace Bytes

variable {n : Nat} {a b : Bytes}

theorem filter_rows_of_lt (h : b.length < n) : (rows n b).filter (·.length == n) = [] := by
  by_cases hb : b = []
  · rw [hb, rows_nil, filter_nil]
  · rw [rows_of_ne_nil (by omega) hb, take_of_length_le (by omega), drop_eq_nil_of_le (by omega), rows_nil]
    simp [Nat.ne_of_lt h]

theorem filter_rows_append (hn : 0 < n) (ha : a.length = n) (b : Bytes) :
    (rows n (a ++ b)).filter (·.length == n) = a :: (rows n b).filter (·.length == n) := by
  have hne : a ++ b ≠ [] := by
    rw [← length_pos_iff, length_append]
    omega
  rw [rows_of_ne_nil hn hne, take_left' ha, drop_left' ha, filter_cons_of_pos (by simpa using ha)]

/-- Bytes are whole rows and a rest. -/
theorem induct_rows {motive : Bytes → Prop} (hn : 0 < n) (short : ∀ b, b.length < n → motive b)
    (row : ∀ a b, a.length = n → motive b → motive (a ++ b)) (b : Bytes) : motive b := by
  by_cases hb : b.length < n
  · exact short b hb
  · have hrow := row (b.take n) (b.drop n) (by rw [length_take]; omega) (induct_rows hn short row (b.drop n))
    rwa [take_append_drop] at hrow
termination_by b.length
decreasing_by
  rw [length_drop]
  omega

end Bytes

namespace PointerReader

variable {t : Target} {p : PointerReader} {w : Nat} {b c : Bytes} {cs : List Char} {v : UInt32} {us vs ws zs : List UInt32}
  {rows : List Bytes} {n : Nat}

/-! ## Values -/

/-- The value of a stored pointer, low byte first. -/
def pointerValue (b : Bytes) : UInt32 := (Numeral.bigEndian 0 b.reverse).toUInt32

/-- The values of the whole pointers of `w` bytes. -/
def pointers (w : Nat) (b : Bytes) : List UInt32 := ((Bytes.rows w b).filter (·.length == w)).map pointerValue

theorem pointers_of_lt (h : b.length < w) : pointers w b = [] := by
  rw [pointers, Bytes.filter_rows_of_lt h, map_nil]

theorem pointers_append_of_length (hw : 0 < w) (hb : b.length = w) (c : Bytes) :
    pointers w (b ++ c) = pointerValue b :: pointers w c := by
  rw [pointers, Bytes.filter_rows_append hw hb, map_cons, pointers]

theorem length_pointers (hw : 0 < w) (b : Bytes) : (pointers w b).length = b.length / w := by
  induction b using Bytes.induct_rows hw with
  | short b hb => rw [pointers_of_lt hb, Nat.div_eq_of_lt hb, length_nil]
  | row a b ha ih =>
    rw [pointers_append_of_length hw ha, length_cons, ih, length_append, ha, Nat.add_div_left _ hw]

/-- Bytes that follow add pointers; they are those of these bytes if no pointer is cut. -/
theorem exists_pointers_append (hw : 0 < w) (b c : Bytes) :
    ∃ vs, pointers w (b ++ c) = pointers w b ++ vs ∧ (w ∣ b.length → vs = pointers w c) := by
  induction b using Bytes.induct_rows hw with
  | short b hb =>
    refine ⟨_, by rw [pointers_of_lt hb, nil_append], fun hdvd => ?_⟩
    obtain rfl := eq_nil_of_length_eq_zero (Nat.eq_zero_of_dvd_of_lt hdvd hb)
    rw [nil_append]
  | row a b ha ih =>
    obtain ⟨vs, heq, hvs⟩ := ih
    refine ⟨vs, ?_, fun hdvd => hvs ?_⟩
    · rw [append_assoc, pointers_append_of_length hw ha, heq, pointers_append_of_length hw ha, cons_append]
    · rw [length_append, ha] at hdvd
      exact (Nat.dvd_add_right (Nat.dvd_refl w)).1 hdvd

theorem pointers_append (hw : 0 < w) (h : w ∣ b.length) (c : Bytes) : pointers w (b ++ c) = pointers w b ++ pointers w c := by
  obtain ⟨vs, heq, hvs⟩ := exists_pointers_append hw b c
  rw [heq, hvs h]

/-- Zeros are pointers of no value. -/
theorem eq_zero_of_mem_pointers (hw : 0 < w) (hb : ∀ x ∈ b, x = 0) : ∀ v ∈ pointers w b, v = 0 := by
  have hzeros : ∀ k, Numeral.bigEndian 0 (replicate k 0) = 0 := by
    intro k
    induction k with
    | zero => rfl
    | succ k ih => exact ih
  induction b using Bytes.induct_rows hw with
  | short b hlt =>
    rw [pointers_of_lt hlt]
    exact fun _ hv => absurd hv not_mem_nil
  | row a b ha ih =>
    obtain ⟨hzero, hb⟩ := forall_mem_append.1 hb
    rw [pointers_append_of_length hw ha, forall_mem_cons]
    refine ⟨?_, ih hb⟩
    rw [pointerValue, eq_replicate_iff.2 ⟨ha, hzero⟩, reverse_replicate, hzeros]
    rfl

/-- Whether bytes are cut into rows between their pointers of `w` bytes, as far as the first `n` of them go. -/
def WholeCuts (w n : Nat) (rows : List Bytes) : Prop :=
  ∀ k, w ∣ (rows.take k).flatten.length ∨ n * w ≤ (rows.take k).flatten.length

theorem WholeCuts.take (h : WholeCuts w n rows) (j : Nat) : WholeCuts w n (rows.take j) := by
  intro k
  rw [take_take]
  exact h _

theorem WholeCuts.tail {row : Bytes} (h : WholeCuts w n (row :: rows)) (hrow : w ∣ row.length) :
    WholeCuts w (n - row.length / w) rows := by
  intro k
  have hk := h (k + 1)
  rw [take_succ_cons, flatten_cons, length_append] at hk
  rw [Nat.sub_mul, Nat.div_mul_cancel hrow, Nat.sub_le_iff_le_add']
  exact hk.imp_left (Nat.dvd_add_right hrow).1

/-- The pointers of rows are those of their bytes as one piece, or begin with the same `n`. -/
theorem WholeCuts.pointers_flatten (hw : 0 < w) (h : WholeCuts w n rows) :
    rows.flatMap (pointers w) = pointers w rows.flatten ∨
      ∃ us vs zs, n ≤ us.length ∧ rows.flatMap (pointers w) = us ++ vs ∧ pointers w rows.flatten = us ++ zs := by
  induction rows generalizing n with
  | nil => exact .inl (pointers_of_lt hw).symm
  | cons row rest ih =>
    rw [flatMap_cons, flatten_cons]
    by_cases hrow : w ∣ row.length
    · rw [pointers_append hw hrow]
      obtain heq | ⟨us, vs, zs, hn, hvs, hzs⟩ := ih (h.tail hrow)
      · exact .inl (by rw [heq])
      · refine .inr ⟨pointers w row ++ us, vs, zs, ?_, by rw [hvs, append_assoc], by rw [hzs, append_assoc]⟩
        rw [length_append, length_pointers hw]
        omega
    · -- the row ends within a pointer, which is none of the first `n`
      obtain ⟨zs, hzs, -⟩ := exists_pointers_append hw row rest.flatten
      have hn : n * w ≤ row.length := by
        have hfirst := h 1
        rw [take_succ_cons, take_zero, flatten_cons, flatten_nil, append_nil] at hfirst
        exact hfirst.resolve_left hrow
      exact .inr ⟨_, _, zs, by rwa [length_pointers hw, Nat.le_div_iff_mul_le hw], rfl, hzs⟩

theorem WholeCuts.le_length (hw : 0 < w) (h : WholeCuts w n rows) (hn : n * w ≤ rows.flatten.length) :
    n ≤ (rows.flatMap (pointers w)).length := by
  obtain heq | ⟨us, vs, -, hus, heq, -⟩ := h.pointers_flatten hw
  · rwa [heq, length_pointers hw, Nat.le_div_iff_mul_le hw]
  · rw [heq, length_append]
    omega

/-! ## Reading -/

/-- What is left of a reader that a value is given to. -/
def give (t : Target) (p : PointerReader) (v : UInt32) : Option PointerReader := (p.add t v []).toOption

theorem toOption_add (digits : Bytes) : (p.add t v digits).toOption = give t p v := by
  unfold give add
  split
  · rfl
  split
  · rfl
  split
  · rfl
  split <;> rfl

theorem give_of_waiting_nil (h : p.waiting = []) (v : UInt32) : give t p v = some p := by
  unfold give add
  rw [h]
  rfl

theorem foldlM_give_of_waiting_nil (h : p.waiting = []) (vs : List UInt32) : vs.foldlM (give t) p = some p := by
  induction vs with
  | nil => rfl
  | cons v vs ih => rw [foldlM_cons, give_of_waiting_nil h]; exact ih

/-- The digits of bytes in reverse order. -/
theorem swapPairs_spells (h : Spells cs b) : ∃ ds, Spells ds b.reverse ∧
    IntelHex.swapPairs (cs.map (·.toNat.toUInt8)) = ds.map (·.toNat.toUInt8) := by
  unfold IntelHex.swapPairs
  rw [length_map, h.length_eq, Nat.mul_mod_right, drop_zero]
  induction h with
  | nil => exact ⟨[], .nil, by simp⟩
  | @cons c d x y cs b hx hy _ ih =>
    obtain ⟨ds, hds, heq⟩ := ih
    refine ⟨ds ++ [c, d], ?_, ?_⟩
    · rw [reverse_cons]
      exact hds.append (.cons hx hy .nil)
    · dsimp only at heq ⊢
      rw [map_cons, map_cons, Bytes.rows_of_ne_nil (by decide) (cons_ne_nil _ _)]
      simp only [List.take, List.drop, reverse_cons, flatten_append, flatten_cons, flatten_nil, heq, map_append, map_cons,
        map_nil, append_nil]

theorem toOption_addPointer (h : Spells cs b) (hne : b ≠ []) (hlen : b.length ≤ 4) :
    (p.addPointer t (cs.map (·.toNat.toUInt8))).toOption = give t p (pointerValue b) := by
  unfold addPointer
  by_cases hdone : p.isDone = true
  · rw [if_pos hdone, give_of_waiting_nil (isEmpty_iff.1 hdone)]
    rfl
  · obtain ⟨ds, hds, hswap⟩ := swapPairs_spells h
    have hread := Numeral.read_spells hds (by simpa using hne) (by rwa [length_reverse])
    rw [Utf8.encode_ofList fun c hc => (hds.exists_reads c hc).elim fun _ hx => hx.2.isAscii] at hread
    rw [if_neg hdone, hswap]
    dsimp only
    rw [hread]
    exact toOption_add _

/-- What is read of digits depends on the bytes that they spell only. -/
theorem toOption_addDigits (hw : t.pointerDigits = 2 * w) (h : Spells cs b) :
    (p.addDigits t (cs.map (·.toNat.toUInt8))).toOption = (pointers w b).foldlM (give t) p := by
  have hwidth : 0 < w ∧ w ≤ 4 := by
    unfold Target.pointerDigits at hw
    split at hw <;> omega
  unfold addDigits
  rw [hw]
  induction b using Bytes.induct_rows hwidth.1 generalizing cs p with
  | short b hb =>
    rw [pointers_of_lt hb, Bytes.filter_rows_of_lt (by rw [length_map, h.length_eq]; omega)]
    rfl
  | row a b ha ih =>
    obtain ⟨ds, es, rfl, hds, hes⟩ := h.split
    have hlen : (ds.map (·.toNat.toUInt8)).length = 2 * w := by rw [length_map, hds.length_eq, ha]
    have hne : a ≠ [] := length_pos_iff.1 (by omega)
    rw [map_append, Bytes.filter_rows_append (by omega) hlen, foldlM_cons, toOption_bind,
      toOption_addPointer hds hne (by omega), pointers_append_of_length hwidth.1 ha, foldlM_cons]
    exact congrArg (give t p (pointerValue a) >>= ·) (funext fun q => ih hes)

theorem toOption_addDigits_lower (hw : t.pointerDigits = 2 * w) (b : Bytes) :
    (p.addDigits t (Utf8.encode (lower b))).toOption = (pointers w b).foldlM (give t) p := by
  have hspells : Spells (b.flatMap (pair lowerDigit)) b :=
    spells_pairs (by decide +kernel) b
  rw [lower, Utf8.encode_ofList fun c hc => (hspells.exists_reads c hc).elim fun _ hx => hx.2.isAscii]
  exact toOption_addDigits hw hspells

/-! ## Outcomes -/

/-- The table of functions that values make; none if a value does not do, or if some function is left. -/
def outcome (t : Target) (p : PointerReader) (vs : List UInt32) : Option FunctionTable :=
  vs.foldlM (give t) p >>= fun q => q.finish.toOption

theorem outcome_cons (v : UInt32) (vs : List UInt32) :
    outcome t p (v :: vs) = give t p v >>= fun q => outcome t q vs := by
  unfold outcome
  rw [foldlM_cons]
  exact Option.bind_assoc ..

theorem waiting_of_give {q : PointerReader} (h : give t p v = some q) : q.waiting = p.waiting.tail := by
  unfold give add at h
  split at h
  next hnil =>
    obtain rfl := Option.some.inj h
    rw [hnil]
    rfl
  next f rest hcons =>
    rw [hcons, tail_cons]
    split at h
    · cases h
    split at h
    · exact Option.some.inj h ▸ rfl
    split at h
    · cases h
    · exact Option.some.inj h ▸ rfl

/-- Values behind those that all functions have are not looked at. -/
theorem outcome_append_of_le (h : p.waiting.length ≤ vs.length) (zs : List UInt32) :
    outcome t p (vs ++ zs) = outcome t p vs := by
  induction vs generalizing p with
  | nil =>
    have hnil := eq_nil_of_length_eq_zero (Nat.le_zero.1 h)
    rw [nil_append, outcome, outcome, foldlM_give_of_waiting_nil hnil, foldlM_give_of_waiting_nil hnil]
  | cons v vs ih =>
    rw [cons_append, outcome_cons, outcome_cons]
    cases hgive : give t p v with
    | none => rfl
    | some q =>
      refine ih ?_
      rw [waiting_of_give hgive, length_tail]
      exact Nat.sub_le_of_le_add h

/-- Functions need no more of a table than their pointers. -/
theorem outcome_take (hw : 0 < w) (b : Bytes) (extra : Nat) :
    outcome t p (pointers w (b.take (p.waiting.length * w + extra))) = outcome t p (pointers w b) := by
  obtain hle | hlt := Nat.le_total b.length (p.waiting.length * w + extra)
  · rw [take_of_length_le hle]
  · obtain ⟨vs, hvs, -⟩ := exists_pointers_append hw (b.take (p.waiting.length * w + extra)) (b.drop _)
    rw [take_append_drop] at hvs
    rw [hvs, outcome_append_of_le]
    rw [length_pointers hw, Nat.le_div_iff_mul_le hw, length_take]
    omega

/-- A function that still waits for its value does not get it from zeros. -/
theorem outcome_append_zeros (h : ∀ v ∈ zs, v = 0) (vs : List UInt32) : outcome t p (vs ++ zs) = outcome t p vs := by
  induction vs generalizing p with
  | nil =>
    by_cases hnil : p.waiting = []
    · exact outcome_append_of_le (by rw [hnil]; exact Nat.le_refl 0) zs
    · obtain ⟨f, rest, hcons⟩ := exists_cons_of_ne_nil hnil
      cases zs with
      | nil => rfl
      | cons z zs =>
        have hgive : give t p z = none := by
          unfold give add
          rw [hcons, h z mem_cons_self]
          rfl
        rw [nil_append, outcome_cons, hgive, outcome]
        show none = p.finish.toOption
        rw [finish, isDone, hcons]
        rfl
  | cons v vs ih =>
    rw [cons_append, outcome_cons, outcome_cons]
    exact congrArg (give t p v >>= ·) (funext fun q => ih)

/-- Values make the same table without those that come behind all functions, or zeros at the end. -/
theorem outcome_append_append (hn : p.waiting.length ≤ n) (h : n ≤ us.length ∨ ((∀ v ∈ vs, v = 0) ∧ ws = [])) :
    outcome t p (us ++ vs ++ ws) = outcome t p (us ++ ws) := by
  obtain hus | ⟨hvs, rfl⟩ := h
  · rw [append_assoc, outcome_append_of_le (Nat.le_trans hn hus), outcome_append_of_le (Nat.le_trans hn hus)]
  · rw [append_nil, append_nil, outcome_append_zeros hvs]

theorem WholeCuts.outcome_eq (hw : 0 < w) (h : WholeCuts w n rows) (hn : p.waiting.length ≤ n) :
    outcome t p (rows.flatMap (pointers w)) = outcome t p (pointers w rows.flatten) := by
  obtain heq | ⟨us, vs, zs, hus, hvs, hzs⟩ := h.pointers_flatten hw
  · rw [heq]
  · rw [hvs, hzs, outcome_append_of_le (Nat.le_trans hn hus), outcome_append_of_le (Nat.le_trans hn hus)]

end PointerReader
end Firmware
