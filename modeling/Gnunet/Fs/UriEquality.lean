import Gnunet.Fs.ContentHashKey
import Gnunet.Fs.KeywordUriRoundTrip
import Mathlib.Data.Finset.Basic

/-!
# Testing URIs for equality

`GNUNET_FS_uri_test_equal` compares the keywords of two keyword URIs by their number and by one
inclusion, and of two location URIs all but the end of the signature.  A keyword that is given
twice is kept twice, and then the inclusion need not hold the other way round.
-/

namespace Gnunet.Fs.UriEquality

open Fs.KeywordUri

structure FileIdentifier where
  fileLength : UInt64
  chk : ContentHashKey
  deriving DecidableEq

structure Location where
  fi : FileIdentifier
  peer : Vector UInt8 264
  expirationTime : UInt64
  contentSignature : Vector UInt8 256
  deriving DecidableEq

inductive OtherUri where
  | chk (fi : FileIdentifier)
  | sks (ns : HashCode) (identifier : List UInt8)
  | loc (location : Location)
  deriving DecidableEq

/-- The size given to `memcmp` for two locations reaches two `unsigned short` into their signatures.
-/
def uriTestEqual : Uri OtherUri → Uri OtherUri → Bool
  | .other (.chk u1), .other (.chk u2) => u1 = u2
  | .other (.sks ns1 identifier1), .other (.sks ns2 identifier2) =>
    ns1 = ns2 && identifier1 = identifier2
  | .ksk keywords1, .ksk keywords2 =>
    keywords1.length = keywords2.length &&
      keywords1.all fun keyword ↦ keywords2.any (keyword = ·)
  | .other (.loc u1), .other (.loc u2) =>
    u1.fi = u2.fi && u1.peer = u2.peer && u1.expirationTime = u2.expirationTime &&
      u1.contentSignature.toList.take 4 = u2.contentSignature.toList.take 4
  | _, _ => false

def OtherUri.compared : OtherUri → OtherUri × List UInt8
  | .loc u => (.loc { u with contentSignature := .replicate 256 0 },
      u.contentSignature.toList.take 4)
  | uri => (uri, [])

open List

theorem uriTestEqual_other {u1 u2 : OtherUri} :
    uriTestEqual (.other u1) (.other u2) ↔ u1.compared = u2.compared := by
  cases u1 <;> cases u2 <;> simp [uriTestEqual, OtherUri.compared, and_assoc]

theorem uriTestEqual_ksk {keywords1 keywords2 : List (List UInt8)} :
    uriTestEqual (.ksk keywords1) (.ksk keywords2) ↔
      keywords1.length = keywords2.length ∧ keywords1 ⊆ keywords2 := by
  simp [uriTestEqual, subset_def]

@[simp]
theorem uriTestEqual_other_ksk (uri : OtherUri) (keywords : List (List UInt8)) :
    uriTestEqual (.other uri) (.ksk keywords) = false := by
  cases uri <;> rfl

theorem uriTestEqual_trans {u1 u2 u3 : Uri OtherUri} (h12 : uriTestEqual u1 u2)
    (h23 : uriTestEqual u2 u3) : uriTestEqual u1 u3 := by
  cases u2 with
  | ksk keywords2 =>
    cases u1 with
    | ksk keywords1 =>
      cases u3 with
      | ksk keywords3 =>
        rw [uriTestEqual_ksk] at h12 h23 ⊢
        exact ⟨h12.1.trans h23.1, List.Subset.trans h12.2 h23.2⟩
      | other uri3 => cases h23
    | other uri1 => simp at h12
  | other uri2 =>
    cases u1 with
    | ksk keywords1 => cases h12
    | other uri1 =>
      cases u3 with
      | ksk keywords3 => simp at h23
      | other uri3 =>
        rw [uriTestEqual_other] at h12 h23 ⊢
        exact h12.trans h23

/-- Of two keyword URIs with equally many keywords, neither has all of the other and one more. -/
def Balanced : Uri OtherUri → Uri OtherUri → Prop
  | .ksk keywords1, .ksk keywords2 => keywords1.length = keywords2.length →
      ¬keywords1.toFinset ⊂ keywords2.toFinset ∧ ¬keywords2.toFinset ⊂ keywords1.toFinset
  | _, _ => True

theorem uri_test_equal_trans_and_symmetric_iff_balanced (u1 u2 u3 : Uri OtherUri) :
    (uriTestEqual u1 u2 → uriTestEqual u2 u3 → uriTestEqual u1 u3) ∧
      ((uriTestEqual u1 u2 ↔ uriTestEqual u2 u1) ↔ Balanced u1 u2) := by
  refine ⟨uriTestEqual_trans, ?_⟩
  cases u1 with
  | ksk keywords1 =>
    cases u2 with
    | ksk keywords2 =>
      rw [uriTestEqual_ksk, uriTestEqual_ksk, Balanced]
      simp only [Finset.ssubset_def, Finset.subset_iff, mem_toFinset]
      tauto
    | other uri2 => simp [Balanced, uriTestEqual]
  | other uri1 =>
    cases u2 with
    | ksk keywords2 => simp [Balanced, uriTestEqual]
    | other uri2 =>
      rw [uriTestEqual_other, uriTestEqual_other, Balanced, iff_true]
      · exact eq_comm
      · exact fun _ _ h ↦ by cases h

def rejectingParsers : OtherParsers OtherUri :=
  ⟨fun _ ↦ .error (.null none), fun _ ↦ .error (.null none), fun _ ↦ .error (.null none)⟩

/-- The keyword `a` given twice is equal to the keywords `a` and `b`, but not the other way
round. -/
theorem uri_test_equal_repeated_keyword :
    (do let u1 ← uriParse scanTwo rejectingParsers (bytes "gnunet://fs/ksk/a+a")
        let u2 ← uriParse scanTwo rejectingParsers (bytes "gnunet://fs/ksk/a+b")
        return (uriTestEqual u1 u2, uriTestEqual u2 u1)) = .ok (true, false) := by
  decide +kernel

end Gnunet.Fs.UriEquality
