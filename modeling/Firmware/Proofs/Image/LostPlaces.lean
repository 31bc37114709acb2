import Firmware.Proofs.Image.Rewriting
import Firmware.Proofs.ObjectHeader.Placeholder
import Firmware.Proofs.Template.Bounds
import Mathlib.Tactic.SplitIfs

/-!
# Places that are lost

Placeholders are replaced line by line, and within a line place by place. A header that is found is always written
(`exists_write`). But a line that is written has no space around it any more, and the place to go on from may then lie
behind its end. This is the only crash there is in replacing placeholders, and it comes with the first header that is
written into a line (`LosesPlace`), as the line does not change its length again (`crashes_replaceInLines`).
-/

namespace Firmware

open List

/-! ## Reading and writing data -/

namespace IntelHex

variable {off : Nat} {line : String}

/-- The data of a line; nothing where the line cannot be read or is no data record. -/
def lineData (line : String) : Bytes :=
  match bytes line with
  | .ok b => if holdsData b then b.dropLast.drop 4 else []
  | .error _ => []

theorem lineData_of_bytes {b : Bytes} (h : bytes line = .ok b) :
    lineData line = if holdsData b = true then b.dropLast.drop 4 else [] := by
  unfold lineData
  rw [h]

theorem length_lineData {b : Bytes} (hbytes : bytes line = .ok b) (hdata : holdsData b = true) :
    (lineData line).length = b.length - 1 - 4 := by
  rw [lineData_of_bytes hbytes, if_pos hdata, length_drop, length_dropLast]

theorem lineData_eq_nil {b : Bytes} (hbytes : bytes line = .ok b) (hdata : holdsData b = false) : lineData line = [] := by
  rw [lineData_of_bytes hbytes, hdata]
  rfl

theorem dataFrom_eq {b : Bytes} (hbytes : bytes line = .ok b) (hoff : holdsData b = true → off < 2 ^ 63 - 4) :
    dataFrom off b = .ok ((lineData line).drop off) := by
  unfold dataFrom
  by_cases hdata : holdsData b = true
  · have hoff := hoff hdata
    have hstart := wrap64_eq (show (0 : Int) ≤ 4 + off by omega) (by omega)
    rw [if_pos (by omega)] at hstart
    simp only [hstart]
    rw [lineData_of_bytes hbytes, if_pos hdata, hdata, Bool.true_and, drop_drop]
    by_cases hin : (4 + off : Int) < (b.length : Int) - 1
    · rw [if_pos (decide_eq_true hin), if_neg (by omega), show ((4 : Int) + off).toNat = 4 + off by omega]
    · -- an offset behind the data
      rw [if_neg (by simpa using hin), drop_eq_nil_of_le (by rw [length_dropLast]; omega)]
  · have hdata := Bool.eq_false_iff.2 hdata
    rw [lineData_eq_nil hbytes hdata, hdata, drop_nil]
    rfl

/-- What a line adds to what is read. An offset that is too large matters to data records only. -/
theorem collect_cons (hoff : ∀ b, bytes line = .ok b → holdsData b = true → off < 2 ^ 63 - 4) (n : Nat) (out : Bytes)
    (rest : List String) :
    collect n off out (line :: rest) = if n ≤ out.length then .ok out else bytes line >>= fun _ =>
      collect n 0 (out ++ (lineData line).drop off) rest := by
  rw [collect]
  cases hbytes : bytes line with
  | error f => rfl
  | ok b =>
    show (if _ then _ else dataFrom off b >>= _) = _
    rw [dataFrom_eq hbytes (hoff b hbytes)]
    rfl

theorem not_crashes_collect (hoff : off < 2 ^ 63 - 4) (n : Nat) (out : Bytes) (lines : List String) :
    ¬ Crashes (collect n off out lines) := by
  induction lines generalizing off out with
  | nil => exact not_crashes_ok out
  | cons line rest ih =>
    rw [collect_cons fun _ _ _ => hoff]
    split
    · exact not_crashes_ok out
    · exact not_crashes_bind (not_crashes_bytes line) fun b _ => ih (by decide : 0 < 2 ^ 63 - 4) _

/-- Bytes that were read can be written over. -/
theorem overwrite_of_collect (hoff : off < 2 ^ 63 - 4) {n : Nat} {out res patch : Bytes} {lines : List String}
    (h : collect n off out lines = .ok res) (hpatch : out.length + patch.length ≤ res.length) :
    (overwrite off patch lines).2 = none := by
  induction lines generalizing off out patch with
  | nil =>
    obtain rfl := Except.ok.inj h
    rw [eq_nil_of_length_eq_zero (by omega : patch.length = 0), overwrite_nil]
  | cons line rest ih =>
    by_cases hne : patch = []
    · rw [hne, overwrite_nil]
    have hpos := length_pos_iff.2 hne
    rw [collect_cons fun _ _ _ => hoff] at h
    split at h
    next =>
      obtain rfl := Except.ok.inj h
      omega
    next =>
      obtain ⟨b, hbytes, h⟩ := exists_of_bind_eq_ok h
      -- what a line has is what it takes
      obtain ⟨f, hfault, -⟩ | ⟨b', hb', hdata, heq⟩ | ⟨b', hb', hdata, -, heq⟩ :=
        overwrite_cons (show off < 2 ^ 63 by omega) hne line rest
      · exact nomatch hbytes.symm.trans (hfault hoff)
      · rw [lineData_eq_nil hb' hdata, drop_nil, append_nil] at h
        rw [heq]
        exact ih (by decide : 0 < 2 ^ 63 - 4) h hpatch
      · rw [heq]
        by_cases hfits : patch.length ≤ b'.length - 1 - (4 + off)
        · rw [drop_eq_nil_of_le hfits, overwrite_nil]
        · refine ih (by decide : 0 < 2 ^ 63 - 4) h ?_
          rw [length_append, length_drop, length_drop, length_lineData hb' hdata]
          omega

/-- What becomes of the first line when bytes are written: it holds no data and stays, or it holds as many bytes as
before. -/
theorem first_of_writeData (hoff : off < 2 ^ 63 - 4) {patch : Bytes} (hpatch : patch ≠ []) {line : String}
    {rest lines : List String} (h : writeData (line :: rest) 0 off patch = (lines, none)) :
    (∃ b rest', bytes line = .ok b ∧ holdsData b = false ∧ lines = line :: rest') ∨
      ∃ b c rest', bytes line = .ok b ∧ holdsData b = true ∧ c.length + 1 = b.length ∧ lines = render c :: rest' := by
  rw [writeData_zero _ _ hpatch] at h
  obtain ⟨f, -, heq⟩ | ⟨b, hbytes, hdata, heq⟩ | ⟨b, hbytes, hdata, -, heq⟩ :=
    overwrite_cons (show off < 2 ^ 63 by omega) hpatch line rest
  · exact nomatch (Prod.mk.inj (heq.symm.trans h)).2
  · exact .inl ⟨b, _, hbytes, hdata, (Prod.mk.inj (heq.symm.trans h)).1.symm⟩
  · rw [heq] at h
    have hlong := length_of_holdsData hdata
    refine .inr ⟨b, _, _, hbytes, hdata, ?_, (Prod.mk.inj h).1.symm⟩
    rw [length_overwrite_any, length_dropLast]
    omega

end IntelHex

/-! ## Headers -/

namespace ObjectHeader

open IntelHex

variable {t : Template} {line : String} {rest original lines : List String} {i : Nat}

theorem encode_ne_nil (h : ObjectHeader) : h.encode ≠ [] := by
  intro hnil
  exact absurd (congrArg List.length hnil) (by decide : size ≠ 0)

theorem not_crashes_at? (t : Template) (b : Bytes) : ¬ Crashes (at? t b) := by
  unfold at?
  split
  · split
    · exact not_crashes_ok none
    next kind _ =>
      rw [crashes_map, ofContent_eq]
      refine not_crashes_bind ?_ fun vtable _ => ?_
      · unfold vtableOf
        split
        · exact not_crashes_error rfl
        · split_ifs <;> first | exact not_crashes_error rfl | exact not_crashes_ok _
      · split
        · exact not_crashes_error rfl
        · exact not_crashes_ok _
  · exact not_crashes_error rfl

/-- A header is found for an object that has something behind its placeholder. -/
theorem length_of_at? {b : Bytes} {h : ObjectHeader} (hat : at? t b = .ok (some h)) : size < b.length := by
  obtain ⟨k, -, hok⟩ := exists_of_at? hat
  obtain ⟨_, -, hlong, -⟩ := ofContent_eq_ok.1 hok
  rw [length_drop] at hlong
  omega

theorem readData_window (lines : List String) (off : Int) :
    readData lines 0 off window = (collect window off [] lines).map (List.take window) := by
  show (collect window off [] lines >>= fun out => pure (out.take window)) = _
  cases collect window off [] lines <;> rfl

theorem not_crashes_headerAt (hi : offsetAt i < 2 ^ 63 - 4) : ¬ Crashes (headerAt t lines i) := by
  unfold headerAt
  rw [readData_window]
  refine not_crashes_bind ?_ fun b _ => not_crashes_at? t b
  rw [crashes_map]
  exact not_crashes_collect hi _ _ _

/-- A header that is found is written. -/
theorem exists_write {h : ObjectHeader} (hi : offsetAt i < 2 ^ 63 - 4) (hheader : headerAt t lines i = .ok (some h)) :
    ∃ lines', writeData lines 0 (offsetAt i) h.encode = (lines', none) := by
  unfold headerAt at hheader
  rw [readData_window] at hheader
  obtain ⟨b, hread, hat⟩ := exists_of_bind_eq_ok hheader
  obtain ⟨out, hcollect, rfl⟩ := exists_of_map_eq_ok hread
  have hlong := length_of_at? hat
  have hencode : h.encode.length = size := rfl
  have hnone : (overwrite (offsetAt i) h.encode lines).2 = none := by
    refine overwrite_of_collect hi hcollect ?_
    rw [length_take] at hlong
    simp only [length_nil]
    omega
  exact ⟨_, (writeData_zero lines _ h.encode_ne_nil).trans (Prod.ext rfl hnone)⟩

theorem not_refused {h : ObjectHeader} {f : Failure} {lines' : List String} (hi : offsetAt i < 2 ^ 63 - 4)
    (hheader : headerAt t lines i = .ok (some h)) :
    writeData lines 0 (offsetAt i) h.encode ≠ (lines', some f) := by
  obtain ⟨written, hwrite⟩ := exists_write hi hheader
  rw [hwrite]
  exact fun heq => Option.some_ne_none f (Prod.mk.inj heq).2.symm

/-! ## Places in a line -/

/-- Whether the first of the lines loses its place, from character `pos` on: the first header that is found for it goes
to a place that lies behind the end of the line once it is written. -/
def LosesPlace (t : Template) (line : String) (rest : List String) (pos : Nat) : Prop :=
  ∃ i b h, pos ≤ i ∧ IsPlace line i ∧ bytes line = .ok b ∧ holdsData b = true ∧ 2 * b.length < i ∧
    headerAt t (line :: rest) i = .ok (some h) ∧
    ∀ j, pos ≤ j → j < i → IsPlace line j → headerAt t (line :: rest) j = .ok none

/-- Whether a line does not get shorter when it is written. -/
def Tight (line : String) : Prop :=
  ∀ b, bytes line = .ok b → holdsData b = true → (Utf8.encode line).length ≤ 2 * b.length + 1

theorem tight_render (b : Bytes) : Tight (render b) := by
  intro b' hbytes _
  obtain rfl := Except.ok.inj ((bytes_render b).symm.trans hbytes)
  rw [length_encode_render, length_append]
  exact Nat.le_refl _

/-- In a line that does not get shorter no place is lost. -/
theorem not_crashes_of_tight (hshort : Short original) (hlines : List.Forall₂ Rewritten original (line :: rest))
    (htight : Tight line) {pos : Nat} (hpos : pos ≤ (Utf8.encode line).length) (fuel : Nat) :
    ¬ Crashes (replaceInLine t fuel pos (line :: rest)) := by
  induction fuel generalizing pos line rest with
  | zero => exact not_crashes_ok _
  | succ fuel ih =>
    have hvisits := visits_replaceInLine t fuel rest hpos
    generalize replaceInLine t (fuel + 1) pos (line :: rest) = result at hvisits
    cases hvisits with
    | done => exact not_crashes_ok _
    | passes i _ hlt => exact ih hlines htight hlt
    | fails i f _ hplace _ hheader =>
      have hi := offset_lt hshort hlines hplace.le_length
      exact not_crashes_error (isOutOfRange_of_not_crashes (not_crashes_headerAt hi) hheader)
    | refused i h lines f _ hplace _ hheader hwrite =>
      exact absurd hwrite (not_refused (offset_lt hshort hlines hplace.le_length) hheader)
    | writes i h lines _ hplace _ hheader hwrite =>
      have hi := offset_lt hshort hlines hplace.le_length
      have hlines' := rewritten_of_writeData (by omega) hlines hwrite
      have hfits := hplace.fits
      obtain ⟨b, rest', -, -, rfl⟩ | ⟨b, c, rest', hbytes, hdata, hlength, rfl⟩ :=
        first_of_writeData hi h.encode_ne_nil hwrite
      · exact ih hlines' htight (by omega)
      · -- the line is as long as it was, or a colon longer
        have hlong := htight b hbytes hdata
        exact ih hlines' (tight_render c) (by rw [length_encode_render]; omega)

/-- The first place has no header, or is the one that is lost. -/
theorem LosesPlace.at_first {pos : Nat} (h : LosesPlace t line rest pos) (hpos : pos ≤ i) (hplace : IsPlace line i)
    (hfirst : ∀ j, pos ≤ j → j < i → ¬ IsPlace line j) :
    headerAt t (line :: rest) i = .ok none ∨ ∃ b h, bytes line = .ok b ∧ holdsData b = true ∧ 2 * b.length < i ∧
      headerAt t (line :: rest) i = .ok (some h) := by
  obtain ⟨k, b, h, hk, hkplace, hbytes, hdata, hlost, hheader, hbefore⟩ := h
  obtain hki | rfl | hik := Nat.lt_trichotomy k i
  · exact absurd hkplace (hfirst k hk hki)
  · exact .inr ⟨b, h, hbytes, hdata, hlost, hheader⟩
  · exact .inl (hbefore i hpos hik hplace)

/-- **Replacing in a line crashes** exactly where the line loses its place. -/
theorem crashes_replaceInLine (hshort : Short original) (hlines : List.Forall₂ Rewritten original (line :: rest))
    {pos : Nat} (hpos : pos ≤ (Utf8.encode line).length) {fuel : Nat} (hfuel : (Utf8.encode line).length + 1 < fuel + pos) :
    Crashes (replaceInLine t fuel pos (line :: rest)) ↔ LosesPlace t line rest pos := by
  induction fuel generalizing pos with
  | zero => omega
  | succ fuel ih =>
    have hvisits := visits_replaceInLine t fuel rest hpos
    generalize replaceInLine t (fuel + 1) pos (line :: rest) = result at hvisits
    cases hvisits with
    | done hnone =>
      refine ⟨fun h => absurd h (not_crashes_ok _), ?_⟩
      rintro ⟨i, b, h, hi, hplace, -⟩
      exact absurd hplace (hnone i hi)
    | passes i hle hlt hfirst hnone =>
      rw [ih hlt (by omega)]
      constructor
      · rintro ⟨k, b, h, hk, hplace, hbytes, hdata, hlost, hheader, hbefore⟩
        refine ⟨k, b, h, by omega, hplace, hbytes, hdata, hlost, hheader, fun j hj hjk hjplace => ?_⟩
        obtain hji | rfl | hij := Nat.lt_trichotomy j i
        · exact absurd hjplace (hfirst j hj hji)
        · exact hnone hjplace
        · exact hbefore j hij hjk hjplace
      · rintro ⟨k, b, h, hk, hplace, hbytes, hdata, hlost, hheader, hbefore⟩
        obtain hki | rfl | hik := Nat.lt_trichotomy k i
        · exact absurd hplace (hfirst k hk hki)
        · exact nomatch (hnone hplace).symm.trans hheader
        · exact ⟨k, b, h, hik, hplace, hbytes, hdata, hlost, hheader, fun j hj => hbefore j (by omega)⟩
    | fails i f hle hplace hfirst hheader =>
      have hi := offset_lt hshort hlines hplace.le_length
      have hsafe := isOutOfRange_of_not_crashes (not_crashes_headerAt hi) hheader
      refine ⟨fun h => absurd h (not_crashes_error hsafe), fun h => ?_⟩
      obtain hnone | ⟨b, header, -, -, -, hsome⟩ := h.at_first hle hplace hfirst
      · exact nomatch hnone.symm.trans hheader
      · exact nomatch hsome.symm.trans hheader
    | refused i h lines f _ hplace _ hheader hwrite =>
      exact absurd hwrite (not_refused (offset_lt hshort hlines hplace.le_length) hheader)
    | writes i h lines hle hplace hfirst hheader hwrite =>
      have hi := offset_lt hshort hlines hplace.le_length
      have hlines' := rewritten_of_writeData (by omega) hlines hwrite
      have hfits := hplace.fits
      obtain ⟨b, rest', hbytes, hdata, rfl⟩ | ⟨b, c, rest', hbytes, hdata, hlength, rfl⟩ :=
        first_of_writeData hi h.encode_ne_nil hwrite
      · -- a line without data stays as it is, and no place in it is lost
        have hnot : ∀ b', bytes line = .ok b' → ¬ holdsData b' = true := by
          intro b' hb'
          rw [← Except.ok.inj (hbytes.symm.trans hb'), hdata]
          exact Bool.false_ne_true
        have htight : Tight line := fun b' hb' hdata' => absurd hdata' (hnot b' hb')
        refine ⟨fun h => absurd h (not_crashes_of_tight hshort hlines' htight (by omega) fuel), ?_⟩
        rintro ⟨k, b', h', -, -, hb', hdata', -⟩
        exact absurd hdata' (hnot b' hb')
      · have hwritten : (Utf8.encode (render c)).length = 2 * b.length + 1 := by
          rw [length_encode_render]
          omega
        by_cases hlost : 2 * b.length < i
        · refine ⟨fun _ => ⟨i, b, h, hle, hplace, hbytes, hdata, hlost, hheader, fun j hj hji hjplace =>
            absurd hjplace (hfirst j hj hji)⟩, fun _ => ?_⟩
          obtain ⟨fuel, rfl⟩ : ∃ n, fuel = n + 1 := ⟨fuel - 1, by omega⟩
          rw [replaceInLine, if_pos (by rw [hwritten]; omega)]
          exact (crashes_error _).2 rfl
        · refine ⟨fun h => absurd h (not_crashes_of_tight hshort hlines' (tight_render c) (by omega) fuel), fun h => ?_⟩
          obtain hnone | ⟨b', header, hb', -, hlost', -⟩ := h.at_first hle hplace hfirst
          · exact nomatch hnone.symm.trans hheader
          · obtain rfl := Except.ok.inj (hbytes.symm.trans hb')
            exact absurd hlost' hlost

/-! ## All lines -/

/-- Whether one of the lines loses its place, as the replacements in those before leave it. -/
inductive LosesPlaces (t : Template) : List String → Prop
  | here {line : String} {rest : List String} (h : LosesPlace t line rest 0) : LosesPlaces t (line :: rest)
  | later {line line' : String} {rest rest' : List String}
      (hline : replaceInLine t ((Utf8.encode line).length + 2) 0 (line :: rest) = .ok (line' :: rest'))
      (h : LosesPlaces t rest') : LosesPlaces t (line :: rest)

theorem crashes_replaceInLinesOnto (hshort : Short original) (hlines : List.Forall₂ Rewritten original lines)
    (acc : List String) : Crashes (replaceInLinesOnto t lines.length acc lines) ↔ LosesPlaces t lines := by
  generalize hn : lines.length = n
  induction n generalizing original lines acc with
  | zero =>
    rw [eq_nil_of_length_eq_zero hn]
    exact ⟨fun h => absurd h (not_crashes_ok _), fun h => (nomatch h)⟩
  | succ n ih =>
    obtain ⟨line, rest, rfl⟩ := exists_cons_of_length_eq_add_one hn
    have hline := crashes_replaceInLine (t := t) hshort hlines (Nat.zero_le _)
      (Nat.lt_succ_self ((Utf8.encode line).length + 1))
    rw [replaceInLinesOnto, crashes_bind, hline]
    -- the lines that follow are as many as before, and are written over at most
    have hnext : ∀ line' rest',
        replaceInLine t ((Utf8.encode line).length + 2) 0 (line :: rest) = .ok (line' :: rest') →
        (Crashes (replaceInLinesOnto t n (line' :: acc) rest') ↔ LosesPlaces t rest') := by
      intro line' rest' hreplaced
      have hrewritten : List.Forall₂ Rewritten original (line' :: rest') :=
        rewritten_of_run hshort hlines (run_replaceInLine [] _ _ hreplaced)
      have hlength := hlines.length_eq.symm.trans hrewritten.length_eq
      cases hrewritten with
      | cons _ hrest =>
        refine ih (fun l hl => hshort l (mem_cons_of_mem _ hl)) hrest (line' :: acc) ?_
        rw [length_cons] at hn hlength
        simp only [length_cons] at hlength
        omega
    constructor
    · rintro (h | ⟨lines', hreplaced, h⟩)
      · exact .here h
      · cases lines' with
        | nil => exact absurd h (not_crashes_ok _)
        | cons line' rest' => exact .later hreplaced ((hnext line' rest' hreplaced).1 h)
    · intro h
      cases h with
      | here h => exact .inl h
      | later hreplaced h => exact .inr ⟨_, hreplaced, (hnext _ _ hreplaced).2 h⟩

/-- **Replacing placeholders crashes** exactly where a line loses its place. -/
theorem crashes_replaceInLines (hshort : Short lines) : Crashes (replaceInLines t lines) ↔ LosesPlaces t lines :=
  crashes_replaceInLinesOnto hshort (List.forall₂_same.2 fun _ _ => .same) []

end ObjectHeader

end Firmware
