import DetGuest.Wire.Framing

/-!
# Region messages, byte for byte

A region message has one byte string, and each byte string that is accepted is the byte string of
the message it decodes to.  Requests and replies have different kinds, so that no byte string is
both.
-/

namespace Bytes

variable {b xs t bs : Bytes} {lo mid hi : Nat}

/-- Two cuts that meet. -/
theorem extract_append_extract (h : lo ≤ mid) (h' : mid ≤ hi) :
  b.extract lo mid ++ b.extract mid hi = b.extract lo hi
  := by
  have hsplit : hi - lo = (mid - lo) + (hi - mid) := by omega
  have hdrop : (b.drop lo).drop (mid - lo) = b.drop mid := by
    rw [List.drop_drop]
    congr 1
    omega
  rw [extract, extract, extract, hsplit, List.take_add, hdrop]

/-- The whole string as a cut. -/
theorem extract_all :
  b.extract 0 b.length = b
  := by
  rw [extract, List.drop_zero, Nat.sub_zero, List.take_length]

/-- Writing right behind a prefix. -/
theorem run_put_behind {ε : Type} (h : xs.length = lo) (hfit : bs.length ≤ t.length) :
  (put lo bs : Exec Bytes ε Unit).run (xs ++ t) = (xs ++ bs ++ t.drop bs.length, .ok ())
  := by
  subst h
  rw [run_put (by rw [List.length_append]; omega), splice, List.take_left, List.drop_append,
    List.drop_eq_nil_of_le (Nat.le_add_right ..), List.nil_append, Nat.add_sub_cancel_left]

theorem run_put_bind_behind {ε α : Type} {f : Unit → Exec Bytes ε α} (h : xs.length = lo)
    (hfit : bs.length ≤ t.length) :
  (put lo bs >>= f).run (xs ++ t) = (f ()).run (xs ++ bs ++ t.drop bs.length)
  := Exec.run_bind_of_ok (run_put_behind h hfit)

end Bytes

namespace Wire.Regionipc

/-! ### The bytes of a message -/

/-- The header of a message. -/
def headerBytes (kind : UInt16) : Bytes :=
  Bytes.ofU32 magic ++ (Bytes.ofU16 version ++ Bytes.ofU16 kind)

/-- The bytes of a request. -/
def requestBytes : Request → Bytes
  | .register flags layoutVersion nameId gva len name =>
      headerBytes kindRegister ++ (Bytes.ofU32 flags ++ (Bytes.ofU32 layoutVersion
        ++ (Bytes.ofU32 nameId ++ (Bytes.ofU64 gva ++ (Bytes.ofU64 len
          ++ (Bytes.ofU16 (UInt16.ofNat name.length) ++ name))))))
  | .unregister regionId => headerBytes kindUnregister ++ Bytes.ofU32 regionId

/-- The bytes of a reply. -/
def replyBytes (reply : Reply) : Bytes :=
  headerBytes kindReply ++ (Bytes.ofU16 reply.status ++ (Bytes.ofU16 0
    ++ (Bytes.ofU32 reply.regionId ++ (Bytes.ofU32 reply.nameId
      ++ Bytes.ofU64 reply.manifestGeneration))))

/-- The requests that are accepted: a region is live, and has a name that fits, an id and a
length. -/
def Request.Valid : Request → Prop
  | .register flags _ nameId _ len name =>
      flags &&& regionFlagDead = 0 ∧ nameId ≠ 0 ∧ len ≠ 0 ∧ 1 ≤ name.length ∧
        name.length ≤ maxNameLen
  | .unregister _ => True

/-- A register request has a name of the length that is encoded. -/
def Request.Named : Request → Prop
  | .register _ _ _ _ _ name => 1 ≤ name.length ∧ name.length ≤ maxNameLen
  | .unregister _ => True

theorem Request.Valid.named {req : Request} (h : req.Valid) :
  req.Named
  := by
  cases req with
  | register flags layoutVersion nameId gva len name => exact h.2.2.2
  | unregister regionId => trivial

theorem length_requestBytes (req : Request) :
  (requestBytes req).length =
    match req with
    | .register _ _ _ _ _ name => regOffName + name.length
    | .unregister _ => unregLen
  := by
  cases req with
  | register flags layoutVersion nameId gva len name =>
      simp only [requestBytes, headerBytes, List.length_append, Bytes.length_ofU32,
        Bytes.length_ofU16, Bytes.length_ofU64, regOffName]
      omega
  | unregister regionId => rfl

theorem length_replyBytes (reply : Reply) :
  (replyBytes reply).length = replyLen
  := rfl

/-! ### Encoders -/

section Encoders

variable {out : Bytes}

/-- The header is written over the first bytes. -/
theorem run_writeHeader (kind : UInt16) (h : headerLen ≤ out.length) :
  (writeHeader kind).run out = (headerBytes kind ++ out.drop headerLen, .ok ())
  := by
  simp only [headerLen] at h ⊢
  rw [writeHeader, ← List.nil_append out, Bytes.run_put_bind_behind (by simp) (by simp; omega),
    Bytes.run_put_bind_behind (by simp) (by simp; omega),
    Bytes.run_put_behind (by simp) (by simp; omega), List.drop_drop, List.drop_drop]
  simp [headerBytes]

/-- A header in front of other fields. -/
theorem run_writeHeader_bind {α : Type} {f : Unit → Exec Bytes EncodeError α} (kind : UInt16)
    (h : headerLen ≤ out.length) :
  (writeHeader kind >>= f).run out = (f ()).run (headerBytes kind ++ out.drop headerLen)
  := Exec.run_bind_of_ok (run_writeHeader kind h)

/-- A request is written over the first bytes. -/
theorem run_encodeRequest {req : Request} (hnamed : req.Named)
    (h : (requestBytes req).length ≤ out.length) :
  (encodeRequest req).run out
    = (requestBytes req ++ out.drop (requestBytes req).length, .ok (requestBytes req).length)
  := by
  rw [length_requestBytes] at h ⊢
  cases req with
  | register flags layoutVersion nameId gva len name =>
      have hname : ¬ (name = [] ∨ name.length > maxNameLen) := by
        rintro (rfl | hlong)
        · exact absurd hnamed.1 (by decide)
        · exact absurd hnamed.2 (Nat.not_le.mpr hlong)
      simp only [regOffName] at h ⊢
      rw [encodeRequest, Exec.run_bind_of_ok (Exec.run_failIf_of_not hname out),
        Exec.run_bind_of_ok (Exec.run_get out),
        Exec.run_bind_of_ok (Exec.run_failIf_of_not (by simp only [regOffName]; omega) out),
        run_writeHeader_bind _ (by simp only [headerLen]; omega)]
      simp only [putU32, putU64, regOffName, headerLen]
      repeat rw [Bytes.run_put_bind_behind (by simp [headerBytes]) (by simp; omega)]
      simp only [Exec.run_pure, List.drop_drop, Bytes.length_ofU32, Bytes.length_ofU64,
        Bytes.length_ofU16, requestBytes, List.append_assoc]
  | unregister regionId =>
      simp only [unregLen] at h ⊢
      rw [encodeRequest, Exec.run_bind_of_ok (Exec.run_get out),
        Exec.run_bind_of_ok (Exec.run_failIf_of_not (by simp only [unregLen]; omega) out),
        run_writeHeader_bind _ (by simp only [headerLen]; omega)]
      simp only [putU32, headerLen]
      rw [Bytes.run_put_bind_behind (by simp [headerBytes]) (by simp; omega)]
      simp only [Exec.run_pure, List.drop_drop, Bytes.length_ofU32, requestBytes, unregLen]

/-- A request that is encoded has a name of the right length and its bytes fit. -/
theorem encodeRequest_eq_ok {req : Request} {out' : Bytes} {n : Nat}
    (h : (encodeRequest req).run out = (out', .ok n)) :
  req.Named ∧ (requestBytes req).length ≤ out.length
  := by
  rw [length_requestBytes]
  cases req with
  | register flags layoutVersion nameId gva len name =>
      by_cases hname : name = [] ∨ name.length > maxNameLen
      · rw [encodeRequest, Exec.run_bind_of_err (Exec.run_failIf_of hname out)] at h
        cases h
      rw [encodeRequest, Exec.run_bind_of_ok (Exec.run_failIf_of_not hname out),
        Exec.run_bind_of_ok (Exec.run_get out)] at h
      by_cases hshort : out.length < regOffName + name.length
      · rw [Exec.run_bind_of_err (Exec.run_failIf_of hshort out)] at h
        cases h
      have hnil : name.length ≠ 0 := fun hzero => hname (Or.inl (List.eq_nil_of_length_eq_zero hzero))
      have hlong : ¬ name.length > maxNameLen := fun hlong => hname (Or.inr hlong)
      refine ⟨⟨?_, ?_⟩, ?_⟩
      · omega
      · exact Nat.not_lt.mp hlong
      · exact Nat.not_lt.mp hshort
  | unregister regionId =>
      rw [encodeRequest, Exec.run_bind_of_ok (Exec.run_get out)] at h
      by_cases hshort : out.length < unregLen
      · rw [Exec.run_bind_of_err (Exec.run_failIf_of hshort out)] at h
        cases h
      exact ⟨trivial, Nat.not_lt.mp hshort⟩

theorem encodeReply_eq_ok {reply : Reply} {out' : Bytes} {n : Nat}
    (h : (encodeReply reply).run out = (out', .ok n)) :
  replyLen ≤ out.length
  := by
  by_contra hshort
  rw [encodeReply, Exec.run_bind_of_ok (Exec.run_get out),
    Exec.run_bind_of_err (Exec.run_failIf_of (Nat.not_le.mp hshort) out)] at h
  cases h

/-- A reply is written over the first bytes. -/
theorem run_encodeReply (reply : Reply) (h : replyLen ≤ out.length) :
  (encodeReply reply).run out = (replyBytes reply ++ out.drop replyLen, .ok replyLen)
  := by
  have h' : 28 ≤ out.length := h
  rw [encodeReply, Exec.run_bind_of_ok (Exec.run_get out),
    Exec.run_bind_of_ok (Exec.run_failIf_of_not (Nat.not_lt.mpr h) out),
    run_writeHeader_bind _ (by simp only [headerLen]; omega)]
  simp only [putU32, putU64, headerLen]
  repeat rw [Bytes.run_put_bind_behind (by simp [headerBytes]) (by simp; omega)]
  simp only [Exec.run_pure, List.drop_drop, Bytes.length_ofU32, Bytes.length_ofU64,
    Bytes.length_ofU16, replyBytes, List.append_assoc, replyLen]

end Encoders

/-! ### Decoders -/

section Decoders

variable {b : Bytes}

theorem checkHeader_headerBytes (kind : UInt16) (t : Bytes) :
  checkHeader (headerBytes kind ++ t) = .ok kind
  := by
  have hlen : (headerBytes kind ++ t).length = 8 + t.length := by
    simp only [headerBytes, List.length_append, Bytes.length_ofU32, Bytes.length_ofU16]
  rw [checkHeader, Res.failIf_of_not (by simp only [hlen, headerLen]; omega), Res.ok_bind,
    getU32_eq (v := magic) (by omega) rfl, Res.ok_bind, Res.failIf_of_not (by simp), Res.ok_bind,
    getU16_eq (v := version) (by omega) rfl, Res.ok_bind, Res.failIf_of_not (by simp),
    Res.ok_bind, getU16_eq (v := kind) (by omega) rfl]

/-- A message that is accepted starts with the header of its kind. -/
theorem checkHeader_eq_ok {kind : UInt16} (h : checkHeader b = .ok kind) :
  headerLen ≤ b.length ∧ b.extract 0 headerLen = headerBytes kind
  := by
  obtain ⟨hlen, h⟩ := Res.seq_eq_ok.mp h
  rw [Res.failIf_eq_ok, Nat.not_lt] at hlen
  have hlen' : 8 ≤ b.length := hlen
  rw [getU32_of_le (by omega), Res.ok_bind] at h
  obtain ⟨hmagic, h⟩ := Res.seq_eq_ok.mp h
  rw [getU16_of_le (by omega), Res.ok_bind] at h
  obtain ⟨hversion, h⟩ := Res.seq_eq_ok.mp h
  rw [getU16_of_le (by omega)] at h
  rw [Res.failIf_eq_ok, not_not] at hmagic hversion
  refine ⟨hlen, ?_⟩
  rw [headerBytes, ← hmagic, ← hversion, ← Res.ok.inj h, Bytes.ofU32_toU32 (by simp; omega),
    Bytes.ofU16_toU16 (by simp; omega), Bytes.ofU16_toU16 (by simp; omega),
    Bytes.extract_append_extract (by omega) (by omega),
    Bytes.extract_append_extract (by omega) (by omega)]
  rfl

/-- The bytes of a register request that is accepted. -/
theorem decodeRegister_eq_ok {req : Request}
    (hhead : b.extract 0 headerLen = headerBytes kindRegister) (h : decodeRegister b = .ok req) :
  req.Valid ∧ b = requestBytes req
  := by
  obtain ⟨hlen, h⟩ := Res.seq_eq_ok.mp h
  rw [Res.failIf_eq_ok, Nat.not_lt] at hlen
  have hlen' : 38 ≤ b.length := hlen
  simp (disch := omega) only [getU32_of_le, getU64_of_le, getU16_of_le, Res.ok_bind] at h
  obtain ⟨hrange, h⟩ := Res.seq_eq_ok.mp h
  obtain ⟨hshort, h⟩ := Res.seq_eq_ok.mp h
  obtain ⟨hexact, h⟩ := Res.seq_eq_ok.mp h
  obtain ⟨hfield, h⟩ := Res.seq_eq_ok.mp h
  rw [Res.failIf_eq_ok] at hrange hshort hexact hfield
  rw [not_not] at hexact
  obtain ⟨n, hn⟩ : ∃ n, (b.extract 36 (36 + 2)).toU16 = n := ⟨_, rfl⟩
  simp only [hn, regOffName] at hrange hexact h
  rw [Bytes.slice_of_le (by omega) (by omega), Res.ok_bind] at h
  have hname : (b.extract 38 (38 + n.toNat)).length = n.toNat := by
    rw [Bytes.length_extract]
    omega
  rw [← Res.ok.inj h]
  refine ⟨⟨?_, ?_, ?_, ?_, ?_⟩, ?_⟩
  · by_contra hflags
    exact hfield (Or.inl hflags)
  · exact fun hid => hfield (Or.inr (Or.inl hid))
  · exact fun hzero => hfield (Or.inr (Or.inr hzero))
  · rw [hname]
    omega
  · rw [hname]
    omega
  · rw [requestBytes, hname, UInt16.ofNat_toNat, ← hn, ← hhead,
      Bytes.ofU32_toU32 (by simp; omega), Bytes.ofU32_toU32 (by simp; omega),
      Bytes.ofU32_toU32 (by simp; omega), Bytes.ofU64_toU64 (by simp; omega),
      Bytes.ofU64_toU64 (by simp; omega), Bytes.ofU16_toU16 (by simp; omega)]
    simp only [headerLen]
    repeat rw [Bytes.extract_append_extract (by omega) (by omega)]
    rw [hn, ← hexact, Bytes.extract_all]

/-- A request is accepted exactly in its own bytes, and when it is valid. -/
theorem decodeRequest_eq_ok {req : Request} :
  decodeRequest b = .ok req ↔ req.Valid ∧ b = requestBytes req
  := by
  constructor
  · intro h
    obtain ⟨kind, hkind, h⟩ := Res.bind_eq_ok.mp h
    obtain ⟨hlen, hhead⟩ := checkHeader_eq_ok hkind
    split at h
    · rename_i hregister
      rw [hregister] at hhead
      exact decodeRegister_eq_ok hhead h
    · split at h
      · rename_i hunregister
        obtain ⟨hshort, h⟩ := Res.seq_eq_ok.mp h
        obtain ⟨hexact, h⟩ := Res.seq_eq_ok.mp h
        rw [Res.failIf_eq_ok, not_not] at hexact
        have hexact' : b.length = 8 + 4 := hexact
        rw [getU32_of_le (by omega), Res.ok_bind] at h
        rw [← Res.ok.inj h]
        refine ⟨trivial, ?_⟩
        rw [requestBytes, ← hunregister, ← hhead, Bytes.ofU32_toU32 (by simp; omega)]
        simp only [headerLen]
        rw [Bytes.extract_append_extract (by omega) (by omega), ← hexact', Bytes.extract_all]
      · cases h
  · rintro ⟨hvalid, rfl⟩
    cases req with
    | register flags layoutVersion nameId gva len name =>
        obtain ⟨hflags, hid, hlen, hmin, hmax⟩ := hvalid
        have hsize := length_requestBytes (.register flags layoutVersion nameId gva len name)
        simp only [regOffName] at hsize
        have hcap : name.length ≤ 56 := hmax
        have hflags' : getU32 (requestBytes (.register flags layoutVersion nameId gva len name)) 8
            = .ok flags := getU32_eq (by omega) rfl
        have hlayout : getU32 (requestBytes (.register flags layoutVersion nameId gva len name)) 12
            = .ok layoutVersion := getU32_eq (by omega) rfl
        have hid' : getU32 (requestBytes (.register flags layoutVersion nameId gva len name)) 16
            = .ok nameId := getU32_eq (by omega) rfl
        have hgva : getU64 (requestBytes (.register flags layoutVersion nameId gva len name)) 20
            = .ok gva := getU64_eq (by omega) rfl
        have hlen' : getU64 (requestBytes (.register flags layoutVersion nameId gva len name)) 28
            = .ok len := getU64_eq (by omega) rfl
        have hnameLen : getU16 (requestBytes (.register flags layoutVersion nameId gva len name)) 36
            = .ok (UInt16.ofNat name.length) := getU16_eq (by omega) rfl
        have hn : (UInt16.ofNat name.length).toNat = name.length :=
          toNat_ofNat_length hcap (by decide)
        have hname : (requestBytes (.register flags layoutVersion nameId gva len name)).extract 38
            (38 + name.length) = name := by
          change name.take (38 + name.length - 38) = name
          rw [Nat.add_sub_cancel_left, List.take_length]
        have hhead : checkHeader (requestBytes (.register flags layoutVersion nameId gva len name))
            = .ok kindRegister := checkHeader_headerBytes _ _
        rw [decodeRequest, hhead, Res.ok_bind, if_pos rfl, decodeRegister,
          Res.failIf_of_not (by simp only [hsize, regOffName]; omega), Res.ok_bind, hflags',
          Res.ok_bind, hlayout, Res.ok_bind, hid', Res.ok_bind, hgva, Res.ok_bind, hlen',
          Res.ok_bind, hnameLen, Res.ok_bind]
        simp only [hn, hsize, regOffName]
        rw [Res.failIf_of_not (by simp only [maxNameLen, maxRegionName]; omega), Res.ok_bind,
          Res.failIf_of_not (by omega), Res.ok_bind, Res.failIf_of_not (by omega), Res.ok_bind,
          Res.failIf_of_not (by simp [hflags, hid, hlen]), Res.ok_bind,
          Bytes.slice_of_le (by omega) (by omega), hname]
        rfl
    | unregister regionId =>
        have hsize : (requestBytes (.unregister regionId)).length = unregLen := rfl
        have hid : getU32 (requestBytes (.unregister regionId)) 8 = .ok regionId :=
          getU32_eq (by rw [hsize]; decide) rfl
        rw [decodeRequest, requestBytes, checkHeader_headerBytes, Res.ok_bind,
          if_neg (by decide), if_pos rfl]
        rw [requestBytes] at hid hsize
        rw [Res.failIf_of_not (by rw [hsize]; decide), Res.ok_bind,
          Res.failIf_of_not (by rw [hsize]; decide), Res.ok_bind, hid]
        rfl

theorem decodeReply_replyBytes (reply : Reply) :
  decodeReply (replyBytes reply) = .ok reply
  := by
  have hlen : (replyBytes reply).length = 28 := rfl
  have hhead : checkHeader (replyBytes reply) = .ok kindReply := checkHeader_headerBytes _ _
  have hstatus : getU16 (replyBytes reply) 8 = .ok reply.status := getU16_eq (by omega) rfl
  have hregion : getU32 (replyBytes reply) 12 = .ok reply.regionId := getU32_eq (by omega) rfl
  have hname : getU32 (replyBytes reply) 16 = .ok reply.nameId := getU32_eq (by omega) rfl
  have hgen : getU64 (replyBytes reply) 20 = .ok reply.manifestGeneration :=
    getU64_eq (by omega) rfl
  rw [decodeReply, hhead, Res.ok_bind, Res.failIf_of_not (not_not.mpr rfl), Res.ok_bind,
    Res.failIf_of_not (by rw [hlen]; decide), Res.ok_bind,
    Res.failIf_of_not (by rw [hlen]; decide), Res.ok_bind, hstatus, Res.ok_bind, hregion,
    Res.ok_bind, hname, Res.ok_bind, hgen]
  rfl

/-- A request and a reply have different kinds. -/
theorem not_request_and_reply {req : Request} {reply : Reply} (hreq : decodeRequest b = .ok req)
    (hreply : decodeReply b = .ok reply) :
  False
  := by
  obtain ⟨kind, hkind, hreq⟩ := Res.bind_eq_ok.mp hreq
  obtain ⟨kind', hkind', hreply⟩ := Res.bind_eq_ok.mp hreply
  obtain rfl := Res.ok.inj (hkind.symm.trans hkind')
  obtain ⟨hkind'', _⟩ := Res.seq_eq_ok.mp hreply
  rw [Res.failIf_eq_ok, not_not] at hkind''
  rw [hkind'', if_neg (by decide), if_neg (by decide)] at hreq
  cases hreq

end Decoders

/-- Requests and replies are encoded one-to-one: a request that is accepted is encoded to the
bytes it came in, what is encoded is decoded to what it was, it fits a datagram, and no byte
string is both a request and a reply. -/
theorem codec_bijective :
  (∀ b req, decodeRequest b = .ok req → ∀ out : Bytes, b.length ≤ out.length →
    (encodeRequest req).run out = (b ++ out.drop b.length, .ok b.length)) ∧
  (∀ req, req.Valid →
    (∀ out : Bytes, maxDatagram ≤ out.length → ∃ out' n, (encodeRequest req).run out
      = (out', .ok n)) ∧
    ∀ out out' n, (encodeRequest req).run out = (out', .ok n) →
      decodeRequest (out'.take n) = .ok req) ∧
  (∀ reply,
    (∀ out : Bytes, maxDatagram ≤ out.length → ∃ out' n, (encodeReply reply).run out
      = (out', .ok n)) ∧
    ∀ out out' n, (encodeReply reply).run out = (out', .ok n) →
      decodeReply (out'.take n) = .ok reply) ∧
  (∀ req out out' n, (encodeRequest req).run out = (out', .ok n) → n ≤ maxDatagram) ∧
  (∀ reply out out' n, (encodeReply reply).run out = (out', .ok n) → n ≤ maxDatagram) ∧
  ∀ b, ¬ ((∃ req, decodeRequest b = .ok req) ∧ ∃ reply, decodeReply b = .ok reply)
  := by
  have hfits : ∀ req : Request, req.Named → (requestBytes req).length ≤ maxDatagram := by
    intro req hnamed
    rw [length_requestBytes]
    cases req with
    | register flags layoutVersion nameId gva len name =>
        exact Nat.le_trans (Nat.add_le_add_left hnamed.2 _) (by decide)
    | unregister regionId => exact (by decide : unregLen ≤ maxDatagram)
  refine ⟨?_, ?_, ?_, ?_, ?_, ?_⟩
  · intro b req h out hout
    obtain ⟨hvalid, rfl⟩ := decodeRequest_eq_ok.mp h
    exact run_encodeRequest hvalid.named hout
  · intro req hvalid
    refine ⟨?_, ?_⟩
    · intro out hout
      exact ⟨_, _, run_encodeRequest hvalid.named
        (Nat.le_trans (hfits req hvalid.named) hout)⟩
    · intro out out' n h
      rw [run_encodeRequest hvalid.named (encodeRequest_eq_ok h).2] at h
      obtain ⟨rfl, hn⟩ := Prod.mk.inj h
      rw [← Res.ok.inj hn, List.take_left]
      exact decodeRequest_eq_ok.mpr ⟨hvalid, rfl⟩
  · intro reply
    refine ⟨?_, ?_⟩
    · intro out hout
      exact ⟨_, _, run_encodeReply reply (Nat.le_trans (by decide) hout)⟩
    · intro out out' n h
      rw [run_encodeReply reply (encodeReply_eq_ok h)] at h
      obtain ⟨rfl, hn⟩ := Prod.mk.inj h
      rw [← Res.ok.inj hn, List.take_left' (length_replyBytes reply)]
      exact decodeReply_replyBytes reply
  · intro req out out' n h
    obtain ⟨hnamed, hlen⟩ := encodeRequest_eq_ok h
    rw [run_encodeRequest hnamed hlen] at h
    rw [← Res.ok.inj (Prod.mk.inj h).2]
    exact hfits req hnamed
  · intro reply out out' n h
    rw [run_encodeReply reply (encodeReply_eq_ok h)] at h
    rw [← Res.ok.inj (Prod.mk.inj h).2]
    decide
  · rintro b ⟨⟨req, hreq⟩, reply, hreply⟩
    exact not_request_and_reply hreq hreply

end Wire.Regionipc
