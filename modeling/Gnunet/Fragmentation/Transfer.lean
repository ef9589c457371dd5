import Gnunet.Fragmentation.Reassembly

/-!
# The transfer of a message

The fragments that a sender produces for a message are delivered to a receiver with the same MTU in
any order, some of them several times and some never, among fragments of other messages.  As long
as the receiver does not discard the context of the message, it accepts all of them, and it
delivers the message once, when the last fragment has arrived.
-/

namespace Gnunet.Fragmentation

open Lib Util List Option Reception KeyedList BitField UInt16

section Total

variable {dc dc' : DefragmentContext} {mc other : MessageContext} {fh : Fragment} {now : ℕ}
  {fragmentId : UInt32}

theorem isSome_oldestMc (old : MessageContext) (list : List MessageContext) :
    (oldestMc (some old) list).isSome = true := by
  induction list generalizing old with
  | nil => rfl
  | cons pos list ih =>
    rw [oldestMc]
    split_ifs
    · exact ih pos
    · exact ih old

theorem exists_obtainMc (hmtu : 1024 + fragmentHeaderSize ≤ dc.mtu.toNat) (hmsgs : 0 < dc.numMsgs)
    (fh : Fragment) (now : ℕ) : ∃ obtained mc, obtainMc dc fh now = some (obtained, mc) := by
  rw [obtainMc]
  split
  case h_1 mc _ => exact ⟨dc, mc, rfl⟩
  case h_2 =>
    rw [if_pos (numFragments_le hmtu fh.totalSize.toNat_lt)]
    split_ifs with hfull
    · obtain ⟨head, list, hlist⟩ := exists_cons_of_length_pos (hmsgs.trans_le hfull)
      have hsome : (oldestMc none dc.list).isSome = true := by
        rw [hlist]
        exact isSome_oldestMc head list
      obtain ⟨_, hold⟩ := isSome_iff_exists.mp hsome
      rw [discardOldestMc, hold]
      exact ⟨_, _, rfl⟩
    · exact ⟨_, _, rfl⟩

theorem exists_processFragment (hmtu : 1024 + fragmentHeaderSize ≤ dc.mtu.toNat)
    (hmsgs : 0 < dc.numMsgs) (fh : Fragment) (now : ℕ) :
    ∃ result, processFragment dc fh now = some result := by
  obtain ⟨_, mc, hobtain⟩ := exists_obtainMc hmtu hmsgs fh now
  have hpos : payloadSize dc.mtu ≠ 0 := by
    rw [payloadSize]
    omega
  rw [processFragment]
  split_ifs with hrejected hmisplaced
  · exact ⟨_, rfl⟩
  · exact ⟨_, rfl⟩
  · rw [not_or] at hmisplaced
    have hacceptable := acceptable_iff.mpr ⟨hrejected, hpos, hmisplaced.1⟩
    obtain ⟨-, htotal⟩ := obtainMc_fields hmisplaced.2 hobtain
    have hbit : ¬ 64 ≤ fh.offset.toNat / payloadSize dc.mtu := by
      have hoffset := hacceptable.offset_eq
      have hlt := fh.offset.toNat_lt
      intro hge
      have hmul := Nat.mul_le_mul hge (show 1024 ≤ payloadSize dc.mtu by rw [payloadSize]; omega)
      omega
    dsimp only
    rw [hobtain, bind_some]
    split_ifs
    · rw [copyData, dif_pos]
      · exact ⟨_, rfl⟩
      · rw [(obtainMc_settings hobtain).1, hacceptable.offset_eq, mc.length_msg, htotal]
        exact hacceptable.end_le
    · exact ⟨_, rfl⟩

/-- The context of the message with the given number is discarded for that of the fragment. -/
def Evicts (dc : DefragmentContext) (fh : Fragment) (fragmentId : UInt32) : Prop :=
  Acceptable dc.mtu fh ∧ dc.find fh.fragmentId = none ∧ dc.numMsgs ≤ dc.list.length ∧
    ∃ old, oldestMc none dc.list = some old ∧ old.fragmentId = fragmentId

theorem find_update_self (h : dc.find mc.fragmentId = some other) :
    (dc.update mc).find mc.fragmentId = some mc :=
  find_replace_self h

theorem find_update_of_ne (h : mc.fragmentId ≠ fragmentId) :
    (dc.update mc).find fragmentId = dc.find fragmentId :=
  find_replace_of_ne h

theorem find_obtainMc_of_ne (hne : fh.fragmentId ≠ fragmentId) (hacceptable : Acceptable dc.mtu fh)
    (hkept : ¬ Evicts dc fh fragmentId) (h : obtainMc dc fh now = some (dc', mc)) :
    dc'.find fragmentId = dc.find fragmentId := by
  have hempty : (emptyMc dc.mtu fh.fragmentId fh.totalSize now).fragmentId ≠ fragmentId := hne
  rw [obtainMc] at h
  split at h
  case h_1 =>
    cases h
    rfl
  case h_2 hnone =>
    split_ifs at h with hbits hfull
    · obtain ⟨_, hdiscarded, heq⟩ := map_eq_some_iff.mp h
      obtain ⟨old, hold, rfl⟩ := map_eq_some_iff.mp hdiscarded
      cases heq
      have hold' : old.fragmentId ≠ fragmentId :=
        fun hid ↦ hkept ⟨hacceptable, hnone, hfull, old, hold, hid⟩
      exact (find_cons.trans (if_neg hempty)).trans (find_eraseP_of_ne hold')
    · cases h
      exact find_cons.trans (if_neg hempty)

end Total

section Fragments

variable {mtu : UInt16} {msg : Message} {fragmentId : UInt32} {bit : ℕ}

variable (hmtu : fragmentHeaderSize < mtu.toNat)
include hmtu

theorem numFragments_pos : 0 < numFragments msg.bytes.length mtu := by
  have hsize := msg.size_ge
  rw [messageHeaderSize] at hsize
  rw [lt_numFragments_iff hmtu]
  omega

variable (hbit : bit < numFragments msg.bytes.length mtu)
include hbit

omit hmtu in
theorem acceptable_assembleFragment (hmtu : 1024 + fragmentHeaderSize ≤ mtu.toNat) :
    Acceptable mtu (assembleFragment msg mtu fragmentId bit) := by
  have hmtu' : fragmentHeaderSize < mtu.toNat := by omega
  have hpos := payloadSize_pos hmtu'
  have hlt := (lt_numFragments_iff hmtu').mp hbit
  have hsize := assembleFragment_size fragmentId hmtu' hbit
  have hlength := assembleFragment_length fragmentId hmtu' hbit
  have htotal := assembleFragment_totalSize fragmentId msg mtu bit
  have hoffset := assembleFragment_offset fragmentId hmtu' hbit
  have hsum : payloadSize mtu + fragmentHeaderSize = mtu.toNat := Nat.sub_add_cancel hmtu'.le
  refine ⟨by omega, ?_, ?_, ?_, hpos, ?_, by omega⟩
  · rw [le_iff_toNat_le]
    omega
  · rw [htotal]
    exact msg.size_ge
  · rw [lt_iff_toNat_lt]
    omega
  · rw [hoffset, Nat.mul_div_cancel _ hpos]

theorem fills_assembleFragment : Fills mtu (assembleFragment msg mtu fragmentId bit) := by
  have hlt := (lt_numFragments_iff hmtu).mp hbit
  rw [Fills, assembleFragment_length fragmentId hmtu hbit, assembleFragment_offset _ hmtu hbit,
    assembleFragment_totalSize]
  omega

def Original (msg : Message) (fragmentId : UInt32) : ByteProperty := fun fid totalSize i byte ↦
  fid = fragmentId → totalSize.toNat = msg.bytes.length ∧ msg.bytes[i]? = some byte

theorem brings_assembleFragment :
    Brings (Original msg fragmentId) mtu (assembleFragment msg mtu fragmentId bit) := by
  intro i byte hlow hhigh htotal hpayload _
  refine ⟨assembleFragment_totalSize fragmentId msg mtu bit, ?_⟩
  have hin : i < (assembleFragment msg mtu fragmentId bit).offset.toNat +
      (assembleFragment msg mtu fragmentId bit).payload.length := by
    rcases fills_assembleFragment hmtu hbit with hfull | hlast
    · rw [hfull]
      exact hhigh
    · rw [hlast]
      exact htotal
  have hbyte := hpayload hin
  rw [assembleFragment_payload fragmentId hmtu hbit (by omega),
    assembleFragment_offset fragmentId hmtu hbit] at hbyte
  rw [assembleFragment_offset fragmentId hmtu hbit] at hlow
  rwa [Nat.add_sub_cancel' hlow] at hbyte

omit hmtu hbit in
theorem Delivery.Consists.eq_original {d : Delivery} (h : d.Consists (Original msg fragmentId))
    (hid : d.fragmentId = fragmentId) :
    d = ⟨fragmentId, ofNat msg.bytes.length, msg.bytes⟩ := by
  obtain ⟨hlength, hheader, hbytes⟩ := h
  have hpos : 0 < d.msg.length := by
    rw [messageHeaderSize] at hheader
    omega
  have htotal := (hbytes 0 _ (getElem?_eq_getElem hpos) hid).1
  have hmsg : d.msg = msg.bytes := by
    apply ext_getElem (hlength.trans htotal)
    intro i hi hi'
    have hbyte := (hbytes i _ (getElem?_eq_getElem hi) hid).2
    rw [getElem?_eq_getElem hi'] at hbyte
    exact (some_inj.mp hbyte).symm
  obtain ⟨_, _, _⟩ := d
  congr
  apply UInt16.toNat_inj.mp
  exact htotal.trans (UInt16.toNat_ofNat_of_lt msg.length_lt).symm

end Fragments

def Arrived (reception : Reception) (fh : Fragment) : Prop :=
  ∃ status, (fh, status) ∈ reception.log

/-- What the receiver holds of a message fits to the fragments that arrived. -/
structure Transfer (mtu : UInt16) (msg : Message) (fragmentId : UInt32) (reception : Reception) :
    Prop where
  mtu_eq : reception.dc.mtu = mtu
  numMsgs_pos : 0 < reception.dc.numMsgs
  vouched : ∀ mc ∈ reception.dc.list, Vouched (Original msg fragmentId) mtu mc
  consists : ∀ d ∈ reception.delivered, d.Consists (Original msg fragmentId)
  accepted : ∀ fh status, (fh, status) ∈ reception.log → fh.fragmentId = fragmentId →
    status ≠ .sysErr
  absent : reception.dc.find fragmentId = none →
    (∀ fh, Arrived reception fh → fh.fragmentId ≠ fragmentId) ∧
      reception.delivered.countP (fun d ↦ d.fragmentId = fragmentId) = 0
  present : ∀ mc, reception.dc.find fragmentId = some mc →
    mc.totalSize = ofNat msg.bytes.length ∧
      (∀ bit, mc.bits.getLsbD bit = true ↔ bit < numFragments msg.bytes.length mtu ∧
        ¬ Arrived reception (assembleFragment msg mtu fragmentId bit)) ∧
      reception.delivered.countP (fun d ↦ d.fragmentId = fragmentId) =
        if mc.bits = 0#64 then 1 else 0

/-- Fragments with the number of the message are those of the message, and its context is kept. -/
def Undisturbed (mtu : UInt16) (msg : Message) (fragmentId : UInt32) (reception : Reception)
    (event : ReceiverEvent) : Prop :=
  ∀ fh now, event = .fragment fh now →
    (fh.fragmentId = fragmentId → Produced mtu msg fragmentId fh) ∧
      ¬ Evicts reception.dc fh fragmentId

section Steps

variable {mtu : UInt16} {msg : Message} {fragmentId : UInt32} {reception : Reception}
  {fh : Fragment} {now : ℕ} {status : Status} {dc : DefragmentContext} {delivery : Option Delivery}

theorem arrived_append {reception : Reception} {delivered : List Delivery} {fh other : Fragment} :
    Arrived ⟨dc, reception.log ++ [(fh, status)], delivered, reception.acks⟩ other ↔
      Arrived reception other ∨ other = fh := by
  rw [Arrived, Arrived]
  simp only [mem_append, mem_singleton, Prod.mk.injEq, exists_or, exists_and_left,
    exists_eq, and_true]

theorem assembleFragment_inj (hmtu : fragmentHeaderSize < mtu.toNat) {bit other : ℕ}
    (hbit : bit < numFragments msg.bytes.length mtu)
    (hother : other < numFragments msg.bytes.length mtu)
    (h : assembleFragment msg mtu fragmentId bit = assembleFragment msg mtu fragmentId other) :
    bit = other := by
  have hoffset := assembleFragment_offset fragmentId hmtu hbit
  rw [h, assembleFragment_offset fragmentId hmtu hother] at hoffset
  exact (Nat.eq_of_mul_eq_mul_right (payloadSize_pos hmtu) hoffset).symm

section

variable (h : Transfer mtu msg fragmentId reception) (hmtu : 1024 + fragmentHeaderSize ≤ mtu.toNat)
include h hmtu

theorem Transfer.obtained {bit : ℕ} {mc : MessageContext}
    (hobtain : obtainMc reception.dc (assembleFragment msg mtu fragmentId bit) now =
      some (dc, mc)) :
    (∀ i, mc.bits.getLsbD i = true ↔ i < numFragments msg.bytes.length mtu ∧
        ¬ Arrived reception (assembleFragment msg mtu fragmentId i)) ∧
      reception.delivered.countP (fun d ↦ d.fragmentId = fragmentId) =
        if mc.bits = 0#64 then 1 else 0 := by
  have hpos : 0 < numFragments msg.bytes.length mtu := numFragments_pos (by omega)
  rcases obtainMc_cases hobtain with ⟨hfound, -⟩ | ⟨hnone, hle, hempty, -, -, -⟩
  · exact (h.present mc hfound).2
  · obtain ⟨harrived, hcount⟩ := h.absent hnone
    rw [assembleFragment_totalSize, h.mtu_eq] at hle
    have hbits : mc.bits = lowest 64 (numFragments msg.bytes.length mtu) := by
      rw [hempty, ← assembleFragment_totalSize fragmentId msg mtu bit, h.mtu_eq]
      rfl
    refine ⟨fun i ↦ ?_, ?_⟩
    · rw [hbits, getLsbD_lowest hle, decide_eq_true_eq]
      exact ⟨fun hi ↦ ⟨hi, fun harr ↦ harrived _ harr rfl⟩, And.left⟩
    · rw [hcount, if_neg]
      have hfirst := getLsbD_lowest hle 0
      rw [← hbits, decide_eq_true hpos] at hfirst
      exact ne_zero_of_getLsbD hfirst

theorem Transfer.fragment_self {bit : ℕ} (hbit : bit < numFragments msg.bytes.length mtu)
    (hprocess : processFragment reception.dc (assembleFragment msg mtu fragmentId bit) now =
      some (status, dc, delivery)) :
    status ≠ .sysErr ∧ ∃ mc, dc.find fragmentId = some mc ∧
      mc.totalSize = ofNat msg.bytes.length ∧
      (∀ i, mc.bits.getLsbD i = true ↔ i < numFragments msg.bytes.length mtu ∧
        ¬ (Arrived reception (assembleFragment msg mtu fragmentId i) ∨
          assembleFragment msg mtu fragmentId i = assembleFragment msg mtu fragmentId bit)) ∧
      (reception.delivered ++ delivery.toList).countP (fun d ↦ d.fragmentId = fragmentId) =
        if mc.bits = 0#64 then 1 else 0 := by
  have hmtu' : fragmentHeaderSize < mtu.toNat := by omega
  have hplace : (assembleFragment msg mtu fragmentId bit).offset.toNat / payloadSize mtu = bit := by
    rw [assembleFragment_offset fragmentId hmtu' hbit, Nat.mul_div_cancel _ (payloadSize_pos hmtu')]
  have hinj {i : ℕ} (hi : i < numFragments msg.bytes.length mtu) :
      assembleFragment msg mtu fragmentId i = assembleFragment msg mtu fragmentId bit ↔
        i = bit :=
    ⟨assembleFragment_inj hmtu' hi hbit, fun heq ↦ by rw [heq]⟩
  rcases processFragment_cases hprocess with
    ⟨-, -, -, hinconsistent⟩ | ⟨-, hconsistent, obtained, mc, mc', hobtain, haccepted, rfl⟩
  · rw [h.mtu_eq] at hinconsistent
    obtain ⟨mc, hfind, hne⟩ := hinconsistent (acceptable_assembleFragment hbit hmtu)
    exact absurd (h.present mc hfind).1 hne
  obtain ⟨hid, htotal⟩ := obtainMc_fields hconsistent hobtain
  obtain ⟨hid', htotal'⟩ := haccepted.fields
  obtain ⟨hbits, hcount⟩ := h.obtained hmtu hobtain
  have hfound : (obtained.update mc').find fragmentId = some mc' := by
    have hkey : mc'.fragmentId = fragmentId := hid'.trans hid
    rw [← hkey]
    apply find_update_self
    rw [hkey]
    exact find_of_obtainMc hobtain
  rw [h.mtu_eq] at haccepted
  cases haccepted with
  | duplicate hclear =>
    rw [hplace] at hclear
    have harrived : Arrived reception (assembleFragment msg mtu fragmentId bit) := by
      by_contra hnot
      rw [(hbits bit).mpr ⟨hbit, hnot⟩] at hclear
      cases hclear
    refine ⟨by decide, _, hfound, htotal'.trans htotal, fun i ↦ (hbits i).trans ?_, ?_⟩
    · apply and_congr_right
      intro hi
      apply not_congr
      constructor
      · exact Or.inl
      · intro hor
        exact hor.elim id fun heq ↦ heq ▸ harrived
    · rw [toList_none, append_nil]
      exact hcount
  | @missing mc' hset hcopy =>
    rw [hplace] at hset hcopy
    obtain ⟨-, hidc, -, hbits', -⟩ := copyData_eq_some hcopy
    rw [if_neg (ne_zero_of_getLsbD hset)] at hcount
    refine ⟨by decide, _, hfound, htotal'.trans htotal, fun i ↦ ?_, ?_⟩
    · rw [hbits', getLsbD_sub_one_shiftLeft hset, Bool.and_eq_true, hbits i,
        decide_eq_true_eq, not_or, and_assoc]
      apply and_congr_right
      intro hi
      rw [hinj hi]
    · rw [countP_append, hcount]
      have hkey : mc'.fragmentId = fragmentId := hidc.trans hid
      split_ifs
      · rw [toList_some, countP_singleton, if_pos (decide_eq_true hkey)]
      · rfl

omit h hmtu in
theorem Transfer.fragment_other (hne : fh.fragmentId ≠ fragmentId)
    (hkept : ¬ Evicts reception.dc fh fragmentId)
    (hprocess : processFragment reception.dc fh now = some (status, dc, delivery)) :
    dc.find fragmentId = reception.dc.find fragmentId ∧
      (reception.delivered ++ delivery.toList).countP (fun d ↦ d.fragmentId = fragmentId) =
        reception.delivered.countP (fun d ↦ d.fragmentId = fragmentId) := by
  rcases processFragment_cases hprocess with
    ⟨-, rfl, rfl, -⟩ | ⟨hacceptable, hconsistent, obtained, mc, mc', hobtain, haccepted, rfl⟩
  · exact ⟨rfl, by rw [toList_none, append_nil]⟩
  obtain ⟨hid, -⟩ := obtainMc_fields hconsistent hobtain
  have hid' := haccepted.fields.1
  constructor
  · rw [find_update_of_ne (hid'.trans hid ▸ hne)]
    exact find_obtainMc_of_ne hne hacceptable hkept hobtain
  · rw [countP_append, Nat.add_eq_left]
    cases haccepted with
    | duplicate => rfl
    | @missing mc' _ hcopy =>
      have hother : mc'.fragmentId ≠ fragmentId := by
        rw [(copyData_eq_some hcopy).2.1, hid]
        exact hne
      split_ifs
      · rw [toList_some, countP_singleton, if_neg (by simpa using hother)]
      · rfl

/-- Every event that does not disturb the transfer is processed and carries it on. -/
theorem Transfer.fragment (hself : fh.fragmentId = fragmentId →
      ∃ bit < numFragments msg.bytes.length mtu, fh = assembleFragment msg mtu fragmentId bit)
    (hkept : ¬ Evicts reception.dc fh fragmentId)
    (hprocess : processFragment reception.dc fh now = some (status, dc, delivery)) :
    Transfer mtu msg fragmentId ⟨dc, reception.log ++ [(fh, status)],
      reception.delivered ++ delivery.toList, reception.acks⟩ := by
  obtain rfl := h.mtu_eq
  obtain ⟨hmtu', hvouched', hdelivery⟩ := processFragment_vouched hprocess h.vouched (by
    intro hacceptable _
    by_cases hid : fh.fragmentId = fragmentId
    · obtain ⟨bit, hbit, rfl⟩ := hself hid
      exact brings_assembleFragment (by omega) hbit
    · exact fun _ _ _ _ _ _ hid' ↦ absurd hid' hid)
  have hconsists : ∀ d ∈ reception.delivered ++ delivery.toList,
      d.Consists (Original msg fragmentId) := by
    intro d hd
    rcases mem_append.mp hd with hd | hd
    · exact h.consists d hd
    · exact hdelivery d (mem_toList.mp hd)
  have hpos : 0 < dc.numMsgs := by
    rw [processFragment_numMsgs hprocess]
    exact h.numMsgs_pos
  have haccepted (hstatus : fh.fragmentId = fragmentId → status ≠ .sysErr) : ∀ other status',
      (other, status') ∈ reception.log ++ [(fh, status)] → other.fragmentId = fragmentId →
        status' ≠ .sysErr := by
    intro other status' hmem hother
    rcases mem_append.mp hmem with hmem | hmem
    · exact h.accepted other status' hmem hother
    · cases mem_singleton.mp hmem
      exact hstatus hother
  by_cases hid : fh.fragmentId = fragmentId
  · obtain ⟨bit, hbit, rfl⟩ := hself hid
    obtain ⟨hstatus, mc, hfind, htotal, hbits, hcount⟩ := h.fragment_self hmtu hbit hprocess
    refine ⟨hmtu', hpos, hvouched', hconsists, haccepted fun _ ↦ hstatus, ?_, ?_⟩
    · intro hnone
      cases hfind.symm.trans hnone
    · intro mc' hmc'
      cases hfind.symm.trans hmc'
      refine ⟨htotal, fun i ↦ ?_, hcount⟩
      rw [arrived_append]
      exact hbits i
  · obtain ⟨hfind, hcount⟩ := Transfer.fragment_other hid hkept hprocess
    have harrived {other : Fragment} (hother : other.fragmentId = fragmentId) :
        Arrived ⟨dc, reception.log ++ [(fh, status)], reception.delivered ++ delivery.toList,
          reception.acks⟩ other ↔ Arrived reception other := by
      rw [arrived_append]
      exact or_iff_left fun heq ↦ hid (heq ▸ hother)
    refine ⟨hmtu', hpos, hvouched', hconsists, haccepted fun hself ↦ absurd hself hid, ?_, ?_⟩
    · intro hnone
      obtain ⟨hnot, hzero⟩ := h.absent (hfind ▸ hnone)
      refine ⟨fun other hother hother' ↦ ?_, hcount.trans hzero⟩
      exact hnot other ((harrived hother').mp hother) hother'
    · intro mc hmc
      obtain ⟨htotal, hbits, hcount'⟩ := h.present mc (hfind ▸ hmc)
      refine ⟨htotal, fun i ↦ (hbits i).trans ?_, hcount.trans hcount'⟩
      rw [harrived rfl]

omit hmtu in
theorem Transfer.sendAck {other : UInt32}
    {fa : FragmentAcknowledgement} (hsend : sendAck reception.dc other = some (dc, fa)) :
    Transfer mtu msg fragmentId
      ⟨dc, reception.log, reception.delivered, reception.acks ++ [fa]⟩ := by
  obtain ⟨rfl, hmsgs, hvouched, hconsists, haccepted, habsent, hpresent⟩ := h
  obtain ⟨hmtu', hvouched'⟩ := sendAck_invariant hsend hvouched fun _ hmc ↦ hmc
  obtain ⟨mc, hfind, rfl, -⟩ := sendAck_eq_some hsend
  have hid : mc.fragmentId = other := key_of_find hfind
  by_cases hother : other = fragmentId
  · have hfind' : (reception.dc.update { mc with ackTask := false }).find fragmentId =
        some { mc with ackTask := false } := by
      rw [← hother, ← hid]
      apply find_update_self
      rw [hid]
      exact hfind
    refine ⟨hmtu', hmsgs, hvouched', hconsists, haccepted, ?_, ?_⟩
    · intro hnone
      cases hfind'.symm.trans hnone
    · intro mc' hmc'
      cases hfind'.symm.trans hmc'
      exact hpresent mc (hother ▸ hfind)
  · have hfind' : (reception.dc.update { mc with ackTask := false }).find fragmentId =
        reception.dc.find fragmentId := find_update_of_ne (fun heq ↦ hother (hid.symm.trans heq))
    refine ⟨hmtu', hmsgs, hvouched', hconsists, haccepted, ?_, ?_⟩
    · exact fun hnone ↦ habsent (hfind' ▸ hnone)
    · exact fun mc' hmc' ↦ hpresent mc' (hfind' ▸ hmc')

theorem Transfer.step {event : ReceiverEvent}
    (hevent : Undisturbed mtu msg fragmentId reception event) :
    ∃ next, reception.step event = some next ∧ Transfer mtu msg fragmentId next := by
  cases event with
  | fragment fh now =>
    obtain ⟨hself, hkept⟩ := hevent fh now rfl
    obtain ⟨⟨_, dc, _⟩, hprocess⟩ :=
      exists_processFragment (h.mtu_eq.symm ▸ hmtu) h.numMsgs_pos fh now
    refine ⟨_, congrArg (Option.map _) hprocess, h.fragment hmtu ?_ hkept hprocess⟩
    exact fun hid ↦ (produced_iff hmtu).mp (hself hid)
  | ackTask other =>
    rw [Reception.step]
    split
    case h_1 dc fa hsend => exact ⟨_, rfl, h.sendAck hsend⟩
    case h_2 => exact ⟨_, rfl, h⟩

theorem Transfer.all_arrived_iff :
    (∀ fh, Produced mtu msg fragmentId fh → Arrived reception fh) ↔
      ∃ mc, reception.dc.find fragmentId = some mc ∧ mc.bits = 0#64 := by
  have hproduced {bit : ℕ} (hbit : bit < numFragments msg.bytes.length mtu) :
      Produced mtu msg fragmentId (assembleFragment msg mtu fragmentId bit) :=
    (produced_iff hmtu).mpr ⟨bit, hbit, rfl⟩
  constructor
  · intro hall
    cases hfind : reception.dc.find fragmentId with
    | none =>
      have hfirst := hall _ (hproduced (numFragments_pos (by omega)))
      exact absurd rfl ((h.absent hfind).1 _ hfirst)
    | some mc =>
      refine ⟨mc, rfl, BitVec.zero_iff_eq_false.mpr fun bit ↦ ?_⟩
      rw [← Bool.not_eq_true, (h.present mc hfind).2.1 bit]
      intro ⟨hbit, hnot⟩
      exact hnot (hall _ (hproduced hbit))
  · intro ⟨mc, hfind, hzero⟩ fh hfh
    obtain ⟨bit, hbit, rfl⟩ := (produced_iff hmtu).mp hfh
    by_contra hnot
    exact ne_zero_of_getLsbD (((h.present mc hfind).2.1 bit).mpr ⟨hbit, hnot⟩) hzero

end

end Steps

/-- Whatever happens as long as the context of the message is not discarded: the fragments of the
message are never rejected, and the message is delivered once if all of them arrived, and not at
all before. -/
theorem message_transferred (mtu : UInt16) (msg : Message) (fragmentId : UInt32)
    (dc : DefragmentContext) (events : List ReceiverEvent)
    (hmtu : 1024 + fragmentHeaderSize ≤ mtu.toNat) (hdc : dc.mtu = mtu) (hmsgs : 0 < dc.numMsgs)
    (hnew : dc.find fragmentId = none)
    (hevents : Runs.Along step (Undisturbed mtu msg fragmentId) (start dc)
      events) :
    ∃ reception, Runs.run step (start dc) events = some reception ∧
      (∀ fh status, (fh, status) ∈ reception.log → fh.fragmentId = fragmentId →
        status ≠ .sysErr) ∧
      ((∀ fh, Produced mtu msg fragmentId fh → Arrived reception fh) ∧
          reception.delivered.filter (fun d ↦ d.fragmentId = fragmentId) =
            [⟨fragmentId, ofNat msg.bytes.length, msg.bytes⟩] ∨
        (¬ ∀ fh, Produced mtu msg fragmentId fh → Arrived reception fh) ∧
          reception.delivered.filter (fun d ↦ d.fragmentId = fragmentId) = []) := by
  have hstart : Transfer mtu msg fragmentId (start dc) := by
    refine ⟨hdc, hmsgs, fun mc hmc i byte _ _ hid ↦ ?_, fun d hd ↦ (not_mem_nil hd).elim,
      fun fh status hmem ↦ (not_mem_nil hmem).elim,
      fun _ ↦ ⟨fun fh ⟨_, hmem⟩ ↦ (not_mem_nil hmem).elim, rfl⟩, fun mc hmc ↦ ?_⟩
    · exact absurd hid (find_eq_none_iff.mp hnew mc hmc)
    · cases hnew.symm.trans hmc
  obtain ⟨reception, hrun, h⟩ := Runs.run_total
    (fun _ _ hinvariant hcondition ↦ hinvariant.step hmtu hcondition) hstart hevents
  refine ⟨reception, hrun, h.accepted, ?_⟩
  have hcount : reception.delivered.countP (fun d ↦ d.fragmentId = fragmentId) =
      (reception.delivered.filter fun d ↦ d.fragmentId = fragmentId).length :=
    countP_eq_length_filter
  rw [h.all_arrived_iff hmtu]
  by_cases hall : ∃ mc, reception.dc.find fragmentId = some mc ∧ mc.bits = 0#64
  · refine Or.inl ⟨hall, ?_⟩
    obtain ⟨mc, hfind, hzero⟩ := hall
    rw [(h.present mc hfind).2.2, if_pos hzero] at hcount
    obtain ⟨d, hd⟩ := length_eq_one_iff.mp hcount.symm
    have hmem : d ∈ reception.delivered.filter fun d ↦ d.fragmentId = fragmentId := by
      rw [hd]
      exact mem_singleton_self d
    rw [mem_filter, decide_eq_true_eq] at hmem
    rw [hd, (h.consists d hmem.1).eq_original hmem.2]
  · refine Or.inr ⟨hall, eq_nil_of_length_eq_zero (hcount.symm.trans ?_)⟩
    cases hfind : reception.dc.find fragmentId with
    | none => exact (h.absent hfind).2
    | some mc =>
      rw [(h.present mc hfind).2.2, if_neg]
      exact fun hzero ↦ hall ⟨mc, hfind, hzero⟩

theorem undisturbed_mixedEvents :
    Runs.Along step (Undisturbed 1036 longMessage 7) (start (defragmentContextCreate 1036 3))
      mixedEvents := by
  have hroom : Runs.Along step (fun reception _ ↦ reception.dc.list.length < reception.dc.numMsgs)
      (start (defragmentContextCreate 1036 3)) mixedEvents := by
    decide +kernel
  have hown : Runs.Along step (fun _ event ↦ event ∈ mixedEvents)
      (start (defragmentContextCreate 1036 3)) mixedEvents :=
    Runs.along_of_mem _ fun _ hevent _ ↦ hevent
  refine (hroom.and hown).imp fun reception event hevent fh now heq ↦ ⟨?_, ?_⟩
  · subst heq
    refine forall_mixedEvents (P := fun fh ↦ fh.fragmentId = 7 → Produced 1036 longMessage 7 fh) ?_
      hevent.2
    have hproduced (bit : ℕ) (hbit : bit < 3) :
        Produced 1036 longMessage 7 (assembleFragment longMessage 1036 7 bit) := by
      have hthree : numFragments longMessage.bytes.length 1036 = 3 := by decide +kernel
      exact (produced_iff (by decide)).mpr ⟨bit, hthree ▸ hbit, rfl⟩
    rw [forall_mem_cons, forall_mem_cons, forall_mem_cons, forall_mem_singleton]
    refine ⟨fun _ ↦ hproduced 0 (by decide), fun _ ↦ hproduced 1 (by decide),
      fun _ ↦ hproduced 2 (by decide), fun height ↦ ?_⟩
    exact absurd (show (8 : UInt32) = 7 from height) (by decide)
  · exact fun hevicts ↦ absurd hevicts.2.2.1 (not_le.mpr hevent.1)

/-- The message is delivered when its second fragment has arrived as the last one. -/
theorem message_transferred_mixed :
    ∃ reception, Runs.run step (start (defragmentContextCreate 1036 3)) mixedEvents =
        some reception ∧
      (∀ fh status, (fh, status) ∈ reception.log → fh.fragmentId = 7 → status ≠ .sysErr) ∧
      (∀ fh, Produced 1036 longMessage 7 fh → Arrived reception fh) ∧
      reception.delivered.filter (fun d ↦ d.fragmentId = 7) =
        [⟨7, ofNat longMessage.bytes.length, longMessage.bytes⟩] := by
  obtain ⟨reception, hrun, haccepted, htransfer⟩ := message_transferred 1036 longMessage 7
    (defragmentContextCreate 1036 3) mixedEvents (by decide) rfl (by decide) rfl
    undisturbed_mixedEvents
  refine ⟨reception, hrun, haccepted, ?_⟩
  rcases htransfer with harrived | ⟨-, hnone⟩
  · exact harrived
  · obtain ⟨_, hlast, hdelivered⟩ := exists_run_mixedEvents
    cases hrun.symm.trans hlast
    have hseven : (7, 2304) ∈ reception.delivered.map fun d ↦ (d.fragmentId, d.totalSize) := by
      rw [hdelivered]
      decide
    obtain ⟨d, hd, heq⟩ := mem_map.mp hseven
    have hother := filter_eq_nil_iff.mp hnone d hd
    exact absurd (decide_eq_true (congrArg Prod.fst heq)) hother

end Gnunet.Fragmentation
