import EW8.Can.Engine

/-!
# What earlier packets leave behind

`m_seqBuffer` and `m_payloadBuffer` are not cleared between packets. Two receivers that differ in
their contents only (`withBuffers`) take the frames of a packet in the same way, and hand the same
payload over; but behind it there is still what was in `m_payloadBuffer` before (`feed_packet`).
-/

namespace EW8.Can

namespace SeqData

variable {d : SeqData} {got : List CanFrame} {f : CanFrame} {c : UInt8} {p b : List UInt8}

/-- Other contents of the buffers. -/
def withBuffers (d : SeqData) (sb pb : Bytes packetBufferLen) : SeqData :=
  { d with seqBuffer := sb, payloadBuffer := pb }

theorem store_withBuffers (full : ℕ → ℕ × List Event) (d : SeqData) (f : CanFrame)
    (sb pb : Bytes packetBufferLen) :
    (d.withBuffers sb pb).store full f =
      (d.store full f).withBuffers (sb.patch (f.seqNo * 8) (f.data.slice 0 f.canDlc)) pb := by
  unfold store
  split_ifs <;> rfl

theorem payloadBuffer_store (full : ℕ → ℕ × List Event) (d : SeqData) (f : CanFrame) :
    (d.store full f).payloadBuffer = d.payloadBuffer := by
  unfold store
  split_ifs <;> rfl

theorem storeEvents_withBuffers (full : ℕ → ℕ × List Event) (d : SeqData) (f : CanFrame)
    (sb pb : Bytes packetBufferLen) :
    (d.withBuffers sb pb).storeEvents full f = d.storeEvents full f := by
  unfold storeEvents
  split_ifs <;> rfl

/-- The packet is taken out of the frames, over what was in the payload buffer. -/
theorem Collects.extract (h : Collects b d got) (hb : IsPacket c p b)
    (hcov : Pieces.Covers CanFrame.seqNo got (numFrames b.length)) :
    d.checkPacket = .ok (d.checked, true) ∧ d.seqLen = b.length ∧ ∃ subs,
      extractCANData d.checked.payloadBuffer d.checked.seqLen d.checked.seqBuffer =
        .ok ⟨c, d.payloadBuffer.patch 0 p, p.length, subs⟩ := by
  obtain ⟨g, hg, h0⟩ := hcov 0 hb.numFrames_pos
  obtain ⟨hlen, hmax, hcrc⟩ := h.header_eq hb hg h0
  have hst := (h.complete_iff hb).2 hcov
  have h8 := hb.le_length
  have hslice := h.slice_eq hb hcov
  refine ⟨?_, hlen, ?_⟩
  · rw [h.toHolds.checkPacket_of_covers hst (hmax ▸ hcov), hlen, hslice, hcrc, beq_self_eq_true]
  · obtain ⟨subs, hext, -⟩ := extractCANData_eq d.checked.seqBuffer d.payloadBuffer h8 hb.length_le
    -- the CRC field is not among the bytes extracted
    have hdrop : d.checked.seqBuffer.slice 8 (b.length - 8) = b.drop 8 := by
      have hcopy : d.checked.seqBuffer.slice 8 (b.length - 8) =
          (d.seqBuffer.slice 0 b.length).drop 8 := by
        rw [Bytes.drop_slice h8, Nat.zero_add]
        exact Bytes.slice_congr fun j _ => Bytes.byteAt_patch_of_not_mem (.inr (by simp))
      rw [hcopy, hslice]
    have hcommand : d.checked.seqBuffer 3 = c := by
      rw [← hb.type, ← hslice, Bytes.getD_slice (by omega), Nat.zero_add]
      rfl
    rw [hdrop, hb.payload, hcommand] at hext
    exact ⟨subs, hlen ▸ hext⟩

end SeqData

namespace CANUpdateEngine

variable {e e' : CANUpdateEngine} {ev : List Event} {sb pb : Bytes packetBufferLen} {now : ℤ} {f : CanFrame}
  {got : List CanFrame} {c : UInt8} {p b : List UInt8} {i k : ℕ}

/-- Other contents of the buffers. -/
def withBuffers (e : CANUpdateEngine) (sb pb : Bytes packetBufferLen) : CANUpdateEngine :=
  { e with toSeqData := e.toSeqData.withBuffers sb pb }

theorem restart_withBuffers : (e.withBuffers sb pb).restart now f =
    ((e.restart now f).1.withBuffers sb pb, (e.restart now f).2) := by
  by_cases hf : e.inputState = .ready ∨ maxTimeout < now - e.timeoutTimer
  · rw [restart_of_fresh hf, restart_of_fresh (e := e.withBuffers sb pb) hf]
    rfl
  push Not at hf
  have hs : e.inputState = .transport := by
    cases h : e.inputState with
    | ready => exact absurd h hf.1
    | transport => rfl
  have ht := not_lt.2 hf.2
  by_cases hm : e.seqMax ≤ f.seqNo
  · rw [restart_of_le hs ht hm, restart_of_le (e := e.withBuffers sb pb) hs ht hm]
    rfl
  · rw [restart_of_transport hs ht (not_le.1 hm),
      restart_of_transport (e := e.withBuffers sb pb) hs ht (not_le.1 hm)]

theorem payloadBuffer_restart : (e.restart now f).1.payloadBuffer = e.payloadBuffer := by
  unfold restart
  dsimp only
  split_ifs <;> rfl

/-- A complete packet leaves the receiver ready. -/
theorem incomplete_of_transport {s : CommunicationInputState} {d : SeqData}
    (h : gotPart s d now = .ok (e', ev)) (hs : e'.inputState = .transport) :
    d.seqStored ≠ d.seqMax := fun hst => by
  cases hc : d.checkPacket with
  | error x =>
    rw [gotPart, if_pos hst, hc] at h
    cases h
  | ok r =>
    obtain ⟨d', ok⟩ := r
    cases ok with
    | false =>
      rw [gotPart_rejected hst hc] at h
      cases h
      cases hs
    | true =>
      rw [gotPart_accepted hst hc] at h
      cases hx : extractCANData d'.payloadBuffer d'.seqLen d'.seqBuffer with
      | error x => rw [hx] at h; cases h
      | ok x =>
        rw [hx] at h
        cases h
        cases hs

/-- A frame that leaves the receiver in the middle of a packet reads neither of the buffers. -/
theorem receive_withBuffers (h : e.canPacketReceptor now f = .ok (e', ev))
    (hs : e'.inputState = .transport) (sb pb : Bytes packetBufferLen) :
    e'.payloadBuffer = e.payloadBuffer ∧
      ∃ sb', (e.withBuffers sb pb).canPacketReceptor now f = .ok (e'.withBuffers sb' pb, ev) := by
  have hpb : (e.restart now f).1.payloadBuffer = e.payloadBuffer := payloadBuffer_restart
  have htwin := receive_eq (e.withBuffers sb pb) now f
  rw [restart_withBuffers] at htwin
  rw [receive_eq] at h
  generalize e.restart now f = r at h htwin hpb
  obtain ⟨r, evr⟩ := r
  by_cases hfree : r.fillSeqBuffer.byteAt f.seqNo = 0
  · rw [if_pos hfree] at h
    replace htwin := htwin.trans (if_pos hfree)
    obtain ⟨⟨e₁, ev₁⟩, hpart, heq⟩ : ∃ t, gotPart r.inputState (r.store full f) now = .ok t ∧
        (t.1, evr ++ (r.storeEvents full f ++ [.stored f]) ++ t.2) = (e', ev) := by
      cases hpart : gotPart r.inputState (r.store full f) now with
      | error x => rw [hpart] at h; cases h
      | ok t => rw [hpart] at h; exact ⟨t, rfl, Except.ok.inj h⟩
    obtain ⟨rfl, rfl⟩ := Prod.mk.inj heq
    have hne := incomplete_of_transport hpart hs
    rw [gotPart_incomplete hne] at hpart
    cases hpart
    refine ⟨(SeqData.payloadBuffer_store full r.toSeqData f).trans hpb,
      sb.patch (f.seqNo * 8) (f.data.slice 0 f.canDlc), htwin.trans ?_⟩
    dsimp only [withBuffers]
    rw [SeqData.store_withBuffers, SeqData.storeEvents_withBuffers,
      gotPart_incomplete (d := (r.store full f).withBuffers _ pb) hne]
    rfl
  · rw [if_neg hfree] at h
    replace htwin := htwin.trans (if_neg hfree)
    obtain ⟨rfl, rfl⟩ := Prod.mk.inj (Except.ok.inj h)
    exact ⟨hpb, sb, htwin⟩

/-! ## A packet -/

/-- Nor do the frames of a packet that do not complete it. -/
theorem feed_withBuffers (hb : IsPacket c p b) (hk : k < numFrames b.length)
    (pre : List (ℤ × CanFrame)) (t : ℤ)
    (hgap : List.IsChain (fun s t => t - s ≤ maxTimeout) (pre.map Prod.fst ++ [t]))
    (hpre : ∀ a ∈ pre, ∃ i < numFrames b.length, i ≠ k ∧ Carries b i a.2)
    (h : Awaits b e got (firstTime pre t)) (hgot : k ∉ got.map CanFrame.seqNo)
    (hfeed : e.feed pre = .ok (e', ev)) (sb pb : Bytes packetBufferLen) :
    e'.payloadBuffer = e.payloadBuffer ∧
      ∃ sb', (e.withBuffers sb pb).feed pre = .ok (e'.withBuffers sb' pb, ev) := by
  induction pre generalizing e got ev sb with
  | nil =>
    obtain ⟨rfl, rfl⟩ := Prod.mk.inj (Except.ok.inj hfeed)
    exact ⟨rfl, sb, rfl⟩
  | cons a pre ih =>
    obtain ⟨i, hi, hik, hf⟩ := hpre a List.mem_cons_self
    obtain ⟨e₁, ev₁, got₁, hrec, -, hcol, hs, htime, hmem⟩ :=
      receive_of_awaits hb h hi hf hk hik hgot
    obtain ⟨hpb, sb₁, hrec'⟩ := receive_withBuffers hrec hs sb pb
    rw [List.map_cons, List.cons_append, List.isChain_cons] at hgap
    have hhead : firstTime pre t ∈ (pre.map Prod.fst ++ [t]).head? := by
      cases pre <;> rfl
    have haw : Awaits b e₁ got₁ (firstTime pre t) :=
      awaits_of_collects hb hcol hs (by rw [htime]; exact hgap.1 _ hhead)
    have hk₁ : k ∉ got₁.map CanFrame.seqNo := fun hk' =>
      ((hmem k).1 hk').elim hgot fun hki => hik hki.symm
    rw [feed_cons hrec] at hfeed
    cases hrest : e₁.feed pre with
    | error x => rw [hrest] at hfeed; cases hfeed
    | ok r =>
      rw [hrest] at hfeed
      obtain ⟨rfl, rfl⟩ := Prod.mk.inj (Except.ok.inj hfeed)
      obtain ⟨hpb', sb', hfeed'⟩ := ih hgap.2 (fun a ha => hpre a (List.mem_cons_of_mem _ ha)) haw
        hk₁ hrest sb₁
      refine ⟨hpb'.trans hpb, sb', ?_⟩
      rw [feed_cons hrec', hfeed']
      rfl

/-- The frame that completes the packet hands it over, over what the payload buffer holds. -/
theorem receive_complete (hb : IsPacket c p b) (h : Awaits b e got now)
    (hk : k < numFrames b.length) (hf : Carries b k f) (hgot : k ∉ got.map CanFrame.seqNo)
    (hall : ∀ i < numFrames b.length, i ≠ k → i ∈ got.map CanFrame.seqNo) :
    ((e.restart now f).1.store full f).seqLen = b.length ∧ ∃ subs,
      e.canPacketReceptor now f = .ok
        ((accept ((e.restart now f).1.store full f).checked now
            ⟨c, e.payloadBuffer.patch 0 p, p.length, subs⟩).1,
          (e.restart now f).2 ++ ((e.restart now f).1.storeEvents full f ++ [.stored f]) ++
            (accept ((e.restart now f).1.store full f).checked now
              ⟨c, e.payloadBuffer.patch 0 p, p.length, subs⟩).2) := by
  obtain ⟨hcol, -, -⟩ := h k hk f hf
  have hnum := hf.seqNo hb hk
  rw [← hnum] at hgot
  have hstore := hcol.store full hb hk hf hgot
  have hcov : Pieces.Covers CanFrame.seqNo (got ++ [f]) (numFrames b.length) :=
    .concat fun u hu huk => hall u hu (hnum ▸ huk)
  obtain ⟨hcheck, hlen, subs, hext⟩ := hstore.extract hb hcov
  have hrec := receive_new hcol.toHolds hgot
  rw [gotPart_accepted ((hstore.complete_iff hb).2 hcov) hcheck, hext] at hrec
  rw [SeqData.payloadBuffer_store, payloadBuffer_restart] at hrec
  exact ⟨hlen, subs, hrec⟩

theorem checked_withBuffers {d : SeqData} :
    (d.withBuffers sb pb).checked = d.checked.withBuffers (sb.patch 4 [0, 0, 0, 0]) pb := rfl

theorem accept_withBuffers {d : SeqData} (x x' : Extracted) :
    (accept (d.withBuffers sb pb) now x').1 = (accept d now x).1.withBuffers sb x'.payload := rfl

theorem accept_snd {d : SeqData} (x : Extracted) :
    (accept d now x).2 = x.subs.map (fun q => .sub q.1 q.2) ++
      [.dispatch ⟨d.seqLen, x.command, x.payload, x.len⟩, .reset] := rfl

theorem feed_concat {l : List (ℤ × CanFrame)} {a : ℤ × CanFrame} {e'' : CANUpdateEngine}
    {ev' : List Event} (h : e.feed l = .ok (e', ev))
    (ha : e'.canPacketReceptor a.1 a.2 = .ok (e'', ev')) :
    e.feed (l ++ [a]) = .ok (e'', ev ++ ev') := by
  induction l generalizing e ev with
  | nil =>
    obtain ⟨rfl, rfl⟩ := Prod.mk.inj (Except.ok.inj h)
    rw [List.nil_append, feed_cons ha]
    simp [feed, Can.feed, Except.map]
  | cons x l ih =>
    cases hrec : e.canPacketReceptor x.1 x.2 with
    | error y => rw [feed_cons_error hrec] at h; cases h
    | ok r =>
      rw [feed_cons hrec] at h
      rw [List.cons_append, feed_cons hrec]
      cases hrest : r.1.feed l with
      | error y => rw [hrest] at h; cases h
      | ok q =>
        rw [hrest] at h
        obtain ⟨rfl, rfl⟩ := Prod.mk.inj (Except.ok.inj h)
        rw [ih hrest]
        exact congrArg Except.ok (Prod.ext rfl (List.append_assoc ..).symm)

/-- Two receivers that await the same packet, and differ in what is left in their buffers only,
    do the same with it and hand it over with the same payload, over the same rest. -/
theorem packet_withBuffers (hb : IsPacket c p b) {pre : List (ℤ × CanFrame)} {t : ℤ}
    {last : CanFrame} (h : Shuffled b pre last)
    (hgap : List.IsChain (fun s t => t - s ≤ maxTimeout) (pre.map Prod.fst ++ [t]))
    (hstart : e.inputState = .ready ∨ maxTimeout < firstTime pre t - e.timeoutTimer)
    (sb pb : Bytes packetBufferLen) :
    ∃ (e' : CANUpdateEngine) (ev : List Event) (subs subs' : List (ℕ × ℕ))
      (sb' pb' : Bytes packetBufferLen), dispatched ev = [] ∧
      e.feed (pre ++ [(t, last)]) = .ok (e', ev ++ (subs.map (fun q => .sub q.1 q.2) ++
        [.dispatch ⟨b.length, c, e.payloadBuffer.patch 0 p, p.length⟩, .reset])) ∧
      (e.withBuffers sb pb).feed (pre ++ [(t, last)]) = .ok (e'.withBuffers sb' pb',
        ev ++ (subs'.map (fun q => .sub q.1 q.2) ++
          [.dispatch ⟨b.length, c, pb.patch 0 p, p.length⟩, .reset])) := by
  obtain ⟨k, hk, hlast, hnew⟩ := h.last_frame
  have hpre : ∀ a ∈ pre, ∃ i < numFrames b.length, i ≠ k ∧ Carries b i a.2 := fun a ha => by
    obtain ⟨i, hi, hf⟩ := h.frames a ha
    exact ⟨i, hi, fun hik => hnew a ha (by rw [hf.seqNo hb hi, hik]), hf⟩
  have hrest : ∀ i < numFrames b.length, i ≠ k → ∃ a ∈ pre, a.2.seqNo = i := fun i hi hik =>
    (h.all i hi).resolve_right fun hl => hik (hl ▸ hlast.seqNo hb hk)
  have hfresh : Awaits b e [] (firstTime pre t) := awaits_of_fresh hstart
  have hfresh' : Awaits b (e.withBuffers sb pb) [] (firstTime pre t) := awaits_of_fresh hstart
  obtain ⟨e₁, ev₁, got, hfeed, hev, haw, hkgot, hmem⟩ :=
    feed_of_awaits hb hk pre t hgap hpre hfresh List.not_mem_nil
  obtain ⟨hpb, sb₁, hfeed'⟩ :=
    feed_withBuffers hb hk pre t hgap hpre hfresh List.not_mem_nil hfeed sb pb
  -- what the second receiver has stored
  obtain ⟨e₂, ev₂, got', hfeed₂, -, haw', hkgot', hmem'⟩ :=
    feed_of_awaits hb hk pre t hgap hpre hfresh' List.not_mem_nil
  obtain ⟨rfl, rfl⟩ := Prod.mk.inj (Except.ok.inj (hfeed₂.symm.trans hfeed'))
  obtain ⟨hseq, subs, hrec⟩ := receive_complete hb haw hk hlast hkgot fun i hi hik =>
    (hmem i).2 (.inr (hrest i hi hik))
  obtain ⟨-, subs', hrec'⟩ := receive_complete hb haw' hk hlast hkgot' fun i hi hik =>
    (hmem' i).2 (.inr (hrest i hi hik))
  have hquiet : dispatched (e₁.restart t last).2 = [] := (haw k hk last hlast).2.2
  rw [restart_withBuffers] at hrec'
  generalize e₁.restart t last = r at hrec hrec' hseq hquiet
  obtain ⟨r, evr⟩ := r
  have hend := feed_concat (a := (t, last)) hfeed hrec
  have hend' := feed_concat (a := (t, last)) hfeed' hrec'
  rw [← List.append_assoc, accept_snd, hpb] at hend
  rw [← List.append_assoc, accept_snd] at hend'
  dsimp only [withBuffers] at hend' hseq
  rw [SeqData.store_withBuffers, SeqData.storeEvents_withBuffers, checked_withBuffers,
    accept_withBuffers] at hend'
  have hlen : (r.store full last).checked.seqLen = b.length := hseq
  have hlen' (sb' : Bytes packetBufferLen) :
      ((r.store full last).checked.withBuffers sb' pb).seqLen = b.length := hseq
  dsimp only at hend hend'
  rw [hlen] at hend
  rw [hlen'] at hend'
  refine ⟨_, _, subs, subs', _, _, ?_, hend, hend'⟩
  simp only [dispatched_append, hev, hquiet, dispatched_storeEvents, dispatched_stored,
    List.nil_append]

end CANUpdateEngine

end EW8.Can
