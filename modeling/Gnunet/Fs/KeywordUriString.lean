import Mathlib.Data.List.GetD
import Gnunet.Fs.KeywordUri

/-!
# The string of a keyword URI

What `uri_ksk_to_string` leaves in its buffer. Every write puts its characters at `wpos`, but the
text of an escaped byte from 128 on is six digits longer than the three places that `wpos` moves:
its first two digits are `FF`, and the others stay in the buffer until later writes cover them.
-/

namespace Gnunet.Fs.KeywordUri

open Util List Piece

theorem forall_byte {p : UInt8 → Prop} (h : ∀ n : Fin 256, p (UInt8.ofNat n)) (c : UInt8) :
    p c := by
  have hc := h ⟨c.toNat, c.toNat_lt⟩
  rwa [UInt8.ofNat_toNat] at hc

def visible (c : UInt8) : UInt8 := if c < 128 then c else 255

theorem visible_eq_self_iff (c : UInt8) : visible c = c ↔ c < 128 ∨ c = 255 := by
  unfold visible
  split_ifs with h
  · simp [h]
  · simp [h, eq_comm]

theorem visible_eq_plus : ∀ c : UInt8, visible c = plus → c = plus :=
  forall_byte (by decide +kernel)

theorem visible_eq_quote : ∀ c : UInt8, visible c = quote → c = quote :=
  forall_byte (by decide +kernel)

theorem visible_eq_zero : ∀ c : UInt8, visible c = 0 → c = 0 :=
  forall_byte (by decide +kernel)

/-- What a reader of the buffer sees of a byte once the next writes are done. -/
def encodeByte (c : UInt8) : List UInt8 :=
  if needsPercent c then
    [percent, hexDigit ((visible c).toNat / 16), hexDigit ((visible c).toNat % 16)]
  else [c]

def Piece.shown : Piece → List UInt8
  | .plain c => [c]
  | .escape c => (percent02X c).take 3

def Piece.trail : Piece → List UInt8
  | .plain _ => []
  | .escape c => (percent02X c).drop 3 ++ [0]

theorem take_percent02X : ∀ c : UInt8, (percent02X c).take 3 =
    [percent, hexDigit ((visible c).toNat / 16), hexDigit ((visible c).toNat % 16)] :=
  forall_byte (by decide +kernel)

theorem shown_pieceOf (c : UInt8) : (pieceOf c).shown = encodeByte c := by
  unfold pieceOf encodeByte
  split_ifs
  · exact take_percent02X c
  · rfl

@[simp] theorem Piece.length_shown (p : Piece) : p.shown.length = p.width := by
  cases p with
  | plain c => rfl
  | escape c => rw [shown, take_percent02X]; rfl

def Piece.isLong : Piece → Bool
  | .plain _ => false
  | .escape c => 128 ≤ c

variable {p : Piece} {ps : List Piece}

theorem Piece.trail_of_isLong (h : p.isLong = true) :
    ∃ c d, p.trail = [70, 70, 70, 70, hexDigit (c / 16), hexDigit (d % 16), 0] ∧
      p.width = 3 ∧ c < 256 ∧ d < 256 := by
  cases p with
  | plain c => exact absurd h Bool.false_ne_true
  | escape c =>
    have hc : ¬c < 128 := by
      have : 128 ≤ c := of_decide_eq_true h
      exact UInt8.not_lt.mpr this
    refine ⟨c.toNat, c.toNat, ?_, rfl, c.toNat_lt, c.toNat_lt⟩
    simp [trail, percent02X, hc]

theorem Piece.trail_of_not_isLong (h : p.isLong = false) :
    p.trail = match p with
      | .plain _ => []
      | .escape _ => [0] := by
  cases p with
  | plain c => rfl
  | escape c =>
    have hc : c < 128 := UInt8.not_le.mp (of_decide_eq_false h)
    simp [trail, percent02X, hc]

theorem Piece.length_trail_of_isLong (h : p.isLong = true) : p.trail.length = 7 := by
  obtain ⟨c, d, htrail, -⟩ := trail_of_isLong h
  rw [htrail]
  rfl

theorem Piece.length_trail_le_one (h : p.isLong = false) : p.trail.length ≤ 1 := by
  rw [trail_of_not_isLong h]
  cases p <;> simp

def IsDigit (c : UInt8) : Prop := ∃ n < 16, c = hexDigit n

theorem IsDigit.plain {c : UInt8} (h : IsDigit c) :
    needsPercent c = false ∧ c ≠ 0 ∧ c ≠ quote ∧ c ≠ plus := by
  obtain ⟨n, _, rfl⟩ := h
  revert n
  decide

theorem writePiece_eq (out : Output) (p : Piece) :
    writePiece out p = if p.width + p.trail.length ≤ out.rest.length then
        some ⟨out.written ++ p.shown, p.trail ++ out.rest.drop (p.width + p.trail.length)⟩
      else none := by
  cases p with
  | plain c =>
    cases hrest : out.rest with
    | nil => simp [writePiece, hrest, width]
    | cons b rest => simp [writePiece, hrest, width, trail, shown]
  | escape c =>
    have hlength : 3 + (escape c).trail.length = (percent02X c).length + 1 := by
      revert c
      exact forall_byte (by decide +kernel)
    rw [width, hlength]
    simp [writePiece, trail, shown]

def width (ps : List Piece) : ℕ := (ps.map Piece.width).sum

@[simp] theorem width_nil : width [] = 0 := rfl

@[simp] theorem width_cons (p : Piece) (ps : List Piece) : width (p :: ps) = p.width + width ps :=
  rfl

theorem width_pos (h : ps ≠ []) : 0 < width ps := by
  obtain ⟨p, ps, rfl⟩ := exists_cons_of_ne_nil h
  have hp : 0 < p.width := by cases p <;> simp [Piece.width]
  rw [width_cons]
  omega

/-- The last write is an escape, so that its terminator ends the string. -/
def endsInEscape (ps : List Piece) : Bool :=
  match ps.getLast? with
  | some (.escape _) => true
  | _ => false

theorem endsInEscape_cons (h : ps ≠ []) : endsInEscape (p :: ps) = endsInEscape ps := by
  obtain ⟨q, _, rfl⟩ := exists_cons_of_ne_nil h
  simp [endsInEscape]

/-- Six more characters follow each long escape, or five of which the last three are an escape. -/
def Clear : List Piece → Prop
  | [] => True
  | p :: ps =>
    (p.isLong = true → 6 ≤ width ps ∨ width ps = 5 ∧ endsInEscape ps = true) ∧ Clear ps

instance decidableClear : (ps : List Piece) → Decidable (Clear ps)
  | [] => .isTrue trivial
  | _ :: ps =>
    have := decidableClear ps
    inferInstanceAs (Decidable (_ ∧ Clear ps))

theorem getD_trail_append (p : Piece) (rest : List UInt8) (j : ℕ) :
    (p.trail ++ rest.drop (p.width + p.trail.length)).getD j 0 =
      if j < p.trail.length then p.trail.getD j 0 else rest.getD (p.width + j) 0 := by
  split_ifs with h
  · exact getD_append _ _ _ _ h
  · rw [getD_append_right _ _ _ _ (Nat.not_lt.mp h)]
    simp only [getD_eq_getElem?_getD, getElem?_drop]
    congr 2
    omega

variable {out out' : Output}

theorem foldlM_cons_some (h : (p :: ps).foldlM writePiece out = some out') :
    p.width + p.trail.length ≤ out.rest.length ∧
      ps.foldlM writePiece
        ⟨out.written ++ p.shown, p.trail ++ out.rest.drop (p.width + p.trail.length)⟩ =
          some out' := by
  rw [foldlM_cons, writePiece_eq] at h
  split_ifs at h with hroom
  · exact ⟨hroom, h⟩
  · exact absurd h (by simp)

theorem length_after {rest : List UInt8} {n : ℕ} (hroom : p.width + p.trail.length ≤ rest.length)
    (h : rest.length = p.width + n) :
    (p.trail ++ rest.drop (p.width + p.trail.length)).length = n := by
  rw [length_append, length_drop]
  omega

section

variable (h : ps.foldlM writePiece out = some out')
include h

theorem written_foldlM :
    out'.written = out.written ++ ps.flatMap shown := by
  induction ps generalizing out with
  | nil =>
    cases h
    simp
  | cons p ps ih =>
    obtain ⟨-, hrun⟩ := foldlM_cons_some h
    rw [ih hrun, flatMap_cons, append_assoc]

theorem digits_foldlM
    (hdigits : ∀ b ∈ out.rest, b = 0 ∨ IsDigit b) :
    ∀ b ∈ out'.rest, b = 0 ∨ IsDigit b := by
  induction ps generalizing out with
  | nil =>
    cases h
    exact hdigits
  | cons p ps ih =>
    obtain ⟨-, hrun⟩ := foldlM_cons_some h
    refine ih hrun fun b hb ↦ ?_
    rcases mem_append.mp hb with hb | hb
    · cases hlong : p.isLong with
      | true =>
        obtain ⟨c, d, htrail, -, _, _⟩ := trail_of_isLong hlong
        rw [htrail] at hb
        simp only [mem_cons, not_mem_nil, or_false] at hb
        have hF : IsDigit 70 := ⟨15, by decide, rfl⟩
        rcases hb with rfl | rfl | rfl | rfl | rfl | rfl | rfl
        · exact .inr hF
        · exact .inr hF
        · exact .inr hF
        · exact .inr hF
        · exact .inr ⟨c / 16, by omega, rfl⟩
        · exact .inr ⟨d % 16, by omega, rfl⟩
        · exact .inl rfl
      | false =>
        rw [trail_of_not_isLong hlong] at hb
        cases p with
        | plain c => exact absurd hb (by simp)
        | escape c => exact .inl (mem_singleton.mp hb)
    · exact hdigits b (mem_of_mem_drop hb)

omit h in
/-- What lies six places behind `wpos` is always zero, so that only the last long escape matters. -/
theorem foldlM_of_clear (hclear : Clear ps)
    (hlength : out.rest.length = width ps + 2) (hfar : ∀ j, 6 ≤ j → out.rest.getD j 0 = 0)
    (hend : out.rest.getD (width ps) 0 = 0 ∨ endsInEscape ps = true) :
    ∃ out', ps.foldlM writePiece out = some out' ∧ out'.rest.head? = some 0 := by
  induction ps generalizing out with
  | nil =>
    refine ⟨out, rfl, ?_⟩
    have hzero : out.rest.getD 0 0 = 0 := hend.resolve_right (by decide)
    obtain ⟨b, _, hrest⟩ := exists_cons_of_length_eq_add_one hlength
    rw [hrest] at hzero ⊢
    exact congrArg some hzero
  | cons p ps ih =>
    rw [width_cons] at hlength hend
    obtain ⟨hlong, hclear⟩ := hclear
    have hroom : p.width + p.trail.length ≤ out.rest.length := by
      cases hp : p.isLong with
      | true =>
        have hw : 5 ≤ width ps := by
          rcases hlong hp with h | h
          · exact Nat.le_of_succ_le h
          · exact Nat.le_of_eq h.1.symm
        have hseven := Piece.length_trail_of_isLong hp
        omega
      | false =>
        have hone := Piece.length_trail_le_one hp
        omega
    rw [foldlM_cons, writePiece_eq, if_pos hroom]
    refine ih hclear (length_after hroom (by omega)) ?_ ?_
    · intro j hj
      rw [getD_trail_append]
      split_ifs with h
      · cases hp : p.isLong with
        | true =>
          obtain ⟨c, d, htrail, -⟩ := Piece.trail_of_isLong hp
          rw [htrail] at h ⊢
          have hsix : j = 6 := Nat.eq_of_le_of_lt_succ hj h
          rw [hsix]
          rfl
        | false =>
          rw [Piece.trail_of_not_isLong hp] at h
          cases p with
          | plain c => exact absurd h (by simp)
          | escape c =>
            simp only [length_singleton] at h
            omega
      · exact hfar _ (by omega)
    · change getD (p.trail ++ _) (width ps) 0 = 0 ∨ _
      rw [getD_trail_append]
      cases hp : p.isLong with
      | true =>
        obtain ⟨c, d, htrail, hwidth, -⟩ := Piece.trail_of_isLong hp
        rcases hlong hp with hsix | ⟨-, hends⟩
        · left
          split_ifs with h
          · rw [htrail] at h ⊢
            have hw : width ps = 6 := Nat.eq_of_le_of_lt_succ hsix h
            rw [hw]
            rfl
          · exact hfar _ (by omega)
        · exact .inr hends
      | false =>
        by_cases hps : ps = []
        · left
          subst hps
          rw [Piece.trail_of_not_isLong hp]
          cases p with
          | plain c => simpa [endsInEscape] using hend
          | escape c => rfl
        · rw [endsInEscape_cons hps] at hend
          refine hend.imp_left fun hzero ↦ ?_
          rw [if_neg, hzero]
          have hpos := width_pos hps
          have hone := Piece.length_trail_le_one hp
          omega

/-- In the last seven places there is no room for a long escape. -/
theorem getD_foldlM_of_width_le (hwidth : width ps ≤ 7)
    (hlength : out.rest.length = width ps + 2)
    (hends : endsInEscape ps = false) : out'.rest.getD 0 0 = out.rest.getD (width ps) 0 := by
  induction ps generalizing out with
  | nil =>
    cases h
    rfl
  | cons p ps ih =>
    obtain ⟨hroom, hrun⟩ := foldlM_cons_some h
    rw [width_cons] at hwidth hlength ⊢
    have hp : p.isLong = false := by
      by_contra hlong
      obtain ⟨c, d, _, _, -⟩ := Piece.trail_of_isLong (Bool.not_eq_false _ ▸ hlong)
      have hseven := Piece.length_trail_of_isLong (Bool.not_eq_false _ ▸ hlong)
      omega
    by_cases hps : ps = []
    · subst hps
      cases p with
      | plain c =>
        cases hrun
        simp [Piece.trail]
      | escape c => exact absurd hends.symm Bool.false_ne_true
    · rw [endsInEscape_cons hps] at hends
      rw [ih hrun (by omega) (length_after hroom (by omega)) hends, getD_trail_append, if_neg]
      have hpos := width_pos hps
      have hone := Piece.length_trail_le_one hp
      omega

theorem clear_of_foldlM (hlength : out.rest.length = width ps + 2)
    (hzero : out'.rest.getD 0 0 = 0) : Clear ps := by
  induction ps generalizing out with
  | nil => trivial
  | cons p ps ih =>
    obtain ⟨hroom, hrun⟩ := foldlM_cons_some h
    rw [width_cons] at hlength
    have hafter := length_after hroom (n := width ps + 2) (by omega)
    refine ⟨fun hp ↦ ?_, ih hrun hafter⟩
    obtain ⟨c, d, htrail, _, _, _⟩ := trail_of_isLong hp
    have hseven := length_trail_of_isLong hp
    by_cases hsix : 6 ≤ width ps
    · exact .inl hsix
    · have hfive : width ps = 5 := by omega
      refine .inr ⟨hfive, ?_⟩
      by_contra hends
      have hlast := getD_foldlM_of_width_le hrun (by omega) hafter (Bool.not_eq_true _ ▸ hends)
      rw [hzero, hfive, htrail] at hlast
      exact (IsDigit.plain ⟨d % 16, by omega, rfl⟩).2.1 hlast.symm

end

end Gnunet.Fs.KeywordUri
