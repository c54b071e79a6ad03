import DetGuest.Lib.Machine
import DetGuest.Wire.Queue

/-!
# One producer and one consumer, step by step

`try_push` and `pop_into` are cut into their accesses to shared memory: reading an index
cell, writing the `Pad` or the record, copying a part of a record, publishing an index.
The steps of the two sides interleave in any way; an index read from the peer may be stale
by the time it is used.
-/

namespace Protocol

open Wire

/-! ### The steps -/

/-- A push to perform: the length of the record and its encoder. -/
structure Job where
  len : Nat
  encode : UInt32 → Exec Bytes EncodeError Nat

/-- Where a producer stands, with its local variables.  `written` is what the push has
written so far. -/
inductive ProducerPc where
  | idle
  | loadCons (job : Job) (prod : UInt32)
  | writePad (job : Job) (prod : UInt32)
  | writeRecord (job : Job) (prod pos : UInt32) (written : List Bytes)
  | publish (prod needed : UInt32) (written : List Bytes)
  | panicked

/-- Where a consumer stands, with its local variables. -/
inductive ConsumerPc where
  | idle
  | loadCons (prod : UInt32)
  | peek (prod cons : UInt32)
  | copy (cons : UInt32) (len : Nat)
  | publish (cons : UInt32) (len : Nat)
  | panicked

/-- Shared memory, and the two sides. -/
structure SpscState where
  mem : ByteMem
  nextSeq : UInt32
  producer : ProducerPc
  scratch : Bytes
  consumer : ConsumerPc

/-- The choices of the scheduler: begin a push or a pop, or let a side do its next step. -/
inductive SpscAct where
  | push (job : Job)
  | producer
  | pop
  | consumer

/-- What can be observed of a step: the bytes of the data area that the producer wrote or
the consumer copied (address and length), the records a push published, and the result of
a pop that ended. -/
structure SpscOut where
  wrote : Option (Nat × Nat)
  copied : Option (Nat × Nat)
  published : List Bytes
  popped : Option (Res DecodeError (Option Bytes))

/-- A step that shows nothing. -/
def SpscOut.silent : SpscOut :=
  { wrote := none, copied := none, published := [], popped := none }

/-- A step that ends a pop. -/
def SpscOut.pop (res : Res DecodeError (Option Bytes)) : SpscOut :=
  { SpscOut.silent with popped := some res }

/-- The first step of a push: check the length and read the own index. -/
def beginPush (dbg : Bool) (r : RingMap) (s : SpscState) (job : Job) : SpscState :=
  match s.producer with
  | .idle =>
      if dbg = true ∧ ¬ (job.len % recordAlign = 0 ∧ padMinLen ≤ job.len
          ∧ job.len ≤ maxRecordLen) then
        { s with producer := .panicked }
      else
        { s with producer := .loadCons job (s.mem.u32 r.prod) }
  | _ => s

/-- The next step of a push. -/
def producerStep (dbg : Bool) (r : RingMap) (s : SpscState) : SpscState × SpscOut :=
  match s.producer with
  | .idle | .panicked => (s, .silent)
  | .loadCons job prod =>
      let cons := s.mem.u32 r.cons
      let needed := bytesNeeded prod r.size (UInt32.ofNat job.len)
      if free prod cons r.size < needed then
        ({ s with producer := .idle }, .silent)
      else if needed > UInt32.ofNat job.len then
        ({ s with producer := .writePad job prod }, .silent)
      else
        ({ s with producer := .writeRecord job prod prod [] }, .silent)
  | .writePad job prod =>
      let a := r.data + (prod &&& (r.size - 1)).toNat
      let tail := (contiguousTail prod r.size).toNat
      match (Producer.padTail dbg r prod).run ⟨s.mem, s.nextSeq⟩ with
      | (p, .ok pos) =>
          ({ s with
              mem := p.mem
              nextSeq := p.nextSeq
              producer := .writeRecord job prod pos [p.mem.read a tail] },
            { SpscOut.silent with wrote := some (a, tail) })
      | (p, .err _) => ({ s with mem := p.mem, nextSeq := p.nextSeq, producer := .idle }, .silent)
      | (p, .panic) =>
          ({ s with mem := p.mem, nextSeq := p.nextSeq, producer := .panicked }, .silent)
  | .writeRecord job prod pos written =>
      let a := r.data + (pos &&& (r.size - 1)).toNat
      match (Producer.placeRecord dbg r pos job.len job.encode).run ⟨s.mem, s.nextSeq⟩ with
      | (p, .ok _) =>
          ({ s with
              mem := p.mem
              nextSeq := p.nextSeq
              producer := .publish prod (bytesNeeded prod r.size (UInt32.ofNat job.len))
                (written ++ [p.mem.read a job.len]) },
            { SpscOut.silent with wrote := some (a, job.len) })
      | (p, .err _) =>
          ({ s with mem := p.mem, nextSeq := p.nextSeq, producer := .idle },
            { SpscOut.silent with wrote := some (a, job.len) })
      | (p, .panic) =>
          ({ s with mem := p.mem, nextSeq := p.nextSeq, producer := .panicked },
            { SpscOut.silent with wrote := some (a, job.len) })
  | .publish prod needed written =>
      ({ s with
          mem := s.mem.write r.prod (Bytes.ofU32 (prod + needed))
          producer := .idle },
        { SpscOut.silent with published := written })

/-- The first step of a pop: read the index of the producer. -/
def beginPop (r : RingMap) (s : SpscState) : SpscState :=
  match s.consumer with
  | .idle => { s with consumer := .loadCons (s.mem.u32 r.prod) }
  | _ => s

/-- The next step of a pop. -/
def consumerStep (dbg : Bool) (r : RingMap) (s : SpscState) : SpscState × SpscOut :=
  match s.consumer with
  | .idle | .panicked => (s, .silent)
  | .loadCons prod =>
      let cons := s.mem.u32 r.cons
      let avail := used prod cons
      if avail = 0 then
        ({ s with consumer := .idle }, .pop (.ok none))
      else if avail.toNat < padMinLen ∨ (contiguousTail cons r.size).toNat < padMinLen
          ∨ s.scratch.length < padMinLen then
        ({ s with consumer := .idle }, .pop (.err .truncated))
      else
        ({ s with consumer := .peek prod cons }, .silent)
  | .peek prod cons =>
      let off := cons &&& (r.size - 1)
      match (Consumer.peekLen dbg r off (used prod cons) (contiguousTail cons r.size)).run
        ⟨s.mem, s.scratch⟩ with
      | (c, .ok len) =>
          ({ s with mem := c.mem, scratch := c.scratch, consumer := .copy cons len },
            { SpscOut.silent with copied := some (r.data + off.toNat, padMinLen) })
      | (c, .err e) =>
          ({ s with mem := c.mem, scratch := c.scratch, consumer := .idle },
            { SpscOut.pop (.err e) with copied := some (r.data + off.toNat, padMinLen) })
      | (c, .panic) =>
          ({ s with mem := c.mem, scratch := c.scratch, consumer := .panicked },
            { SpscOut.silent with copied := some (r.data + off.toNat, padMinLen) })
  | .copy cons len =>
      let off := cons &&& (r.size - 1)
      match (Consumer.copyRecord dbg r off len).run ⟨s.mem, s.scratch⟩ with
      | (c, .ok _) =>
          ({ s with mem := c.mem, scratch := c.scratch, consumer := .publish cons len },
            { SpscOut.silent with copied := some (r.data + off.toNat, len) })
      | (c, .err e) =>
          ({ s with mem := c.mem, scratch := c.scratch, consumer := .idle },
            { SpscOut.pop (.err e) with copied := some (r.data + off.toNat, len) })
      | (c, .panic) =>
          ({ s with mem := c.mem, scratch := c.scratch, consumer := .panicked },
            { SpscOut.silent with copied := some (r.data + off.toNat, len) })
  | .publish cons len =>
      ({ s with
          mem := s.mem.write r.cons (Bytes.ofU32 (cons + UInt32.ofNat len))
          consumer := .idle },
        .pop (.ok (some (s.scratch.take len))))

/-- One step of the whole system. -/
def spscStep (dbg : Bool) (r : RingMap) (s : SpscState) (act : SpscAct) : SpscState × SpscOut :=
  match act with
  | .push job => (beginPush dbg r s job, .silent)
  | .producer => producerStep dbg r s
  | .pop => (beginPop r s, .silent)
  | .consumer => consumerStep dbg r s

/-! ### One side alone -/

section Alone

variable {dbg : Bool} {r : RingMap} {s : SpscState}

/-- Where a producer stands after a push. -/
def ProducerPc.after (res : Res RingFull UInt32) : ProducerPc :=
  match res with
  | .panic => .panicked
  | _ => .idle

/-- The last two steps of a push place the record and publish it. -/
theorem writeRecord_alone {job : Job} {prod pos : UInt32} {written : List Bytes} {p : Producer}
    {res : Res RingFull UInt32} (hpc : s.producer = .writeRecord job prod pos written)
    (hplace : (do
        let seq ← Producer.placeRecord dbg r pos job.len job.encode
        Producer.storeU32 r.prod (prod + bytesNeeded prod r.size (UInt32.ofNat job.len))
        pure seq : Exec Producer RingFull UInt32).run ⟨s.mem, s.nextSeq⟩ = (p, res)) :
  (producerStep dbg r (producerStep dbg r s).1).1
    = { s with mem := p.mem, nextSeq := p.nextSeq, producer := .after res }
  := by
  rw [Exec.run_bind] at hplace
  rcases hrec : (Producer.placeRecord dbg r pos job.len job.encode).run ⟨s.mem, s.nextSeq⟩
    with ⟨q, seq | e | _⟩
  · simp only [hrec, Producer.storeU32, Exec.run_bind, Exec.run_modify, Exec.run_pure] at hplace
    obtain ⟨rfl, rfl⟩ := hplace
    simp [producerStep, hpc, hrec, ProducerPc.after]
  · simp only [hrec] at hplace
    obtain ⟨rfl, rfl⟩ := hplace
    simp [producerStep, hpc, hrec, ProducerPc.after]
  · simp only [hrec] at hplace
    obtain ⟨rfl, rfl⟩ := hplace
    simp [producerStep, hpc, hrec, ProducerPc.after]

/-- A push that has read both indices runs to its end. -/
theorem loadCons_alone {job : Job} {p : Producer} {res : Res RingFull UInt32}
    (hpc : s.producer = .loadCons job (s.mem.u32 r.prod))
    (hlen : ¬ (dbg = true ∧ ¬ (job.len % recordAlign = 0 ∧ padMinLen ≤ job.len
      ∧ job.len ≤ maxRecordLen)))
    (hpush : (Producer.tryPush dbg r job.len job.encode).run ⟨s.mem, s.nextSeq⟩ = (p, res)) :
  (producerStep dbg r (producerStep dbg r (producerStep dbg r (producerStep dbg r s).1).1).1).1
    = { s with mem := p.mem, nextSeq := p.nextSeq, producer := .after res }
  := by
  have hassert : dbg = true → job.len % recordAlign = 0 ∧ padMinLen ≤ job.len
      ∧ job.len ≤ maxRecordLen := by tauto
  rw [Producer.tryPush, Exec.run_bind_of_ok (Exec.run_debugAssert_of_imp hassert _),
    Exec.run_bind_of_ok (Exec.run_get _)] at hpush
  by_cases hfull : free (s.mem.u32 r.prod) (s.mem.u32 r.cons) r.size
      < bytesNeeded (s.mem.u32 r.prod) r.size (UInt32.ofNat job.len)
  · rw [Exec.run_bind_of_err (Exec.run_failIf_of hfull _)] at hpush
    obtain ⟨rfl, rfl⟩ := hpush
    have hstep : (producerStep dbg r s).1 = { s with producer := .idle } := by
      simp only [producerStep, hpc, if_pos hfull]
    rw [hstep]
    rfl
  rw [Exec.run_bind_of_ok (Exec.run_failIf_of_not hfull _)] at hpush
  by_cases hpad : bytesNeeded (s.mem.u32 r.prod) r.size (UInt32.ofNat job.len)
      > UInt32.ofNat job.len
  · have hstep : (producerStep dbg r s).1
        = { s with producer := .writePad job (s.mem.u32 r.prod) } := by
      simp only [producerStep, hpc, if_neg hfull, if_pos hpad]
    rw [if_pos hpad] at hpush
    rw [hstep]
    rcases htail : (Producer.padTail dbg r (s.mem.u32 r.prod)).run ⟨s.mem, s.nextSeq⟩
      with ⟨q, pos | e | _⟩
    · rw [Exec.run_bind_of_ok htail] at hpush
      have hnext : (producerStep dbg r
            { s with producer := .writePad job (s.mem.u32 r.prod) }).1
          = { s with
              mem := q.mem
              nextSeq := q.nextSeq
              producer := .writeRecord job (s.mem.u32 r.prod) pos
                [q.mem.read (r.data + (s.mem.u32 r.prod &&& (r.size - 1)).toNat)
                  (contiguousTail (s.mem.u32 r.prod) r.size).toNat] } := by
        simp only [producerStep, htail]
      rw [hnext]
      exact writeRecord_alone rfl hpush
    · rw [Exec.run_bind_of_err htail] at hpush
      obtain ⟨rfl, rfl⟩ := hpush
      simp only [producerStep, htail, ProducerPc.after]
    · rw [Exec.run_bind_of_panic htail] at hpush
      obtain ⟨rfl, rfl⟩ := hpush
      simp only [producerStep, htail, ProducerPc.after]
  · have hstep : (producerStep dbg r s).1
        = { s with
            producer := .writeRecord job (s.mem.u32 r.prod) (s.mem.u32 r.prod) [] } := by
      simp only [producerStep, hpc, if_neg hfull, if_neg hpad]
    rw [if_neg hpad, Exec.run_bind_of_ok (Exec.run_pure _ _)] at hpush
    have hlast := writeRecord_alone (s := { s with
      producer := .writeRecord job (s.mem.u32 r.prod) (s.mem.u32 r.prod) [] }) rfl hpush
    rw [hstep, hlast]
    -- the record needed no `Pad`, and the last of the steps finds the push at its end
    cases res with
    | ok seq => rfl
    | err e => rfl
    | panic => rfl

/-- The steps of a push that nothing interrupts do what `try_push` does. -/
theorem producer_alone {job : Job} (hidle : s.producer = .idle) {p : Producer}
    {res : Res RingFull UInt32}
    (hpush : (Producer.tryPush dbg r job.len job.encode).run ⟨s.mem, s.nextSeq⟩ = (p, res)) :
  (Machine.run (spscStep dbg r) s [.push job, .producer, .producer, .producer, .producer]).1
    = { s with mem := p.mem, nextSeq := p.nextSeq, producer := .after res }
  := by
  simp only [Machine.run, spscStep, beginPush, hidle]
  by_cases hlen : dbg = true ∧ ¬ (job.len % recordAlign = 0 ∧ padMinLen ≤ job.len
      ∧ job.len ≤ maxRecordLen)
  · rw [Producer.tryPush, Exec.run_bind, Exec.debugAssert, if_pos hlen] at hpush
    obtain ⟨rfl, rfl⟩ := hpush
    rw [if_pos hlen]
    rfl
  · rw [if_neg hlen]
    exact loadCons_alone rfl hlen hpush

/-- Where a consumer stands after a pop. -/
def ConsumerPc.after (res : Res DecodeError (Option Nat)) : ConsumerPc :=
  match res with
  | .panic => .panicked
  | _ => .idle

/-- The last two steps of a pop copy the record and hand its bytes back. -/
theorem copy_alone {cons : UInt32} {len : Nat} {c : Consumer}
    {res : Res DecodeError (Option Nat)} (hpc : s.consumer = .copy cons len)
    (hcopy : (do
        Consumer.copyRecord dbg r (cons &&& (r.size - 1)) len
        Consumer.storeU32 r.cons (cons + UInt32.ofNat len)
        pure (some len) : Exec Consumer DecodeError (Option Nat)).run ⟨s.mem, s.scratch⟩
          = (c, res)) :
  (consumerStep dbg r (consumerStep dbg r s).1).1
    = { s with mem := c.mem, scratch := c.scratch, consumer := .after res }
  := by
  rw [Exec.run_bind] at hcopy
  rcases hrec : (Consumer.copyRecord dbg r (cons &&& (r.size - 1)) len).run ⟨s.mem, s.scratch⟩
    with ⟨d, _ | e | _⟩
  · simp only [hrec, Consumer.storeU32, Exec.run_bind, Exec.run_modify, Exec.run_pure] at hcopy
    obtain ⟨rfl, rfl⟩ := hcopy
    simp only [consumerStep, hpc, hrec, ConsumerPc.after]
  · simp only [hrec] at hcopy
    obtain ⟨rfl, rfl⟩ := hcopy
    simp only [consumerStep, hpc, hrec, ConsumerPc.after]
  · simp only [hrec] at hcopy
    obtain ⟨rfl, rfl⟩ := hcopy
    simp only [consumerStep, hpc, hrec, ConsumerPc.after]

/-- The steps of a pop that nothing interrupts do what `pop_into` does. -/
theorem consumer_alone (hidle : s.consumer = .idle) {c : Consumer}
    {res : Res DecodeError (Option Nat)}
    (hpop : (Consumer.popInto dbg r).run ⟨s.mem, s.scratch⟩ = (c, res)) :
  (Machine.run (spscStep dbg r) s [.pop, .consumer, .consumer, .consumer, .consumer]).1
    = { s with mem := c.mem, scratch := c.scratch, consumer := .after res }
  := by
  simp only [Machine.run, spscStep, beginPop, hidle]
  rw [Consumer.popInto, Exec.run_bind_of_ok (Exec.run_get _)] at hpop
  by_cases hzero : used (s.mem.u32 r.prod) (s.mem.u32 r.cons) = 0
  · simp only [if_pos hzero] at hpop
    obtain ⟨rfl, rfl⟩ := hpop
    simp only [consumerStep, if_pos hzero]
    rfl
  simp only [if_neg hzero] at hpop
  by_cases hshort : (used (s.mem.u32 r.prod) (s.mem.u32 r.cons)).toNat < padMinLen
      ∨ (contiguousTail (s.mem.u32 r.cons) r.size).toNat < padMinLen
      ∨ s.scratch.length < padMinLen
  · rw [Exec.run_bind_of_err (Exec.run_failIf_of hshort _)] at hpop
    obtain ⟨rfl, rfl⟩ := hpop
    simp only [consumerStep, if_neg hzero, if_pos hshort]
    rfl
  rw [Exec.run_bind_of_ok (Exec.run_failIf_of_not hshort _)] at hpop
  have hload : (consumerStep dbg r { s with consumer := .loadCons (s.mem.u32 r.prod) }).1
      = { s with consumer := .peek (s.mem.u32 r.prod) (s.mem.u32 r.cons) } := by
    simp only [consumerStep, if_neg hzero, if_neg hshort]
  rw [hload]
  clear hload
  rcases hpeek : (Consumer.peekLen dbg r (s.mem.u32 r.cons &&& (r.size - 1))
      (used (s.mem.u32 r.prod) (s.mem.u32 r.cons)) (contiguousTail (s.mem.u32 r.cons) r.size)).run
      ⟨s.mem, s.scratch⟩ with ⟨d, len | e | _⟩
  · have hnext : (consumerStep dbg r
          { s with consumer := .peek (s.mem.u32 r.prod) (s.mem.u32 r.cons) }).1
        = { s with
            mem := d.mem
            scratch := d.scratch
            consumer := .copy (s.mem.u32 r.cons) len } := by
      simp only [consumerStep, hpeek]
    rw [Exec.run_bind_of_ok hpeek] at hpop
    rw [hnext]
    exact copy_alone rfl hpop
  · rw [Exec.run_bind_of_err hpeek] at hpop
    obtain ⟨rfl, rfl⟩ := hpop
    simp only [consumerStep, hpeek, ConsumerPc.after]
  · rw [Exec.run_bind_of_panic hpeek] at hpop
    obtain ⟨rfl, rfl⟩ := hpop
    simp only [consumerStep, hpeek, ConsumerPc.after]

end Alone

/-! ### What is claimed of a run -/

/-- The encoder of the push writes a record of exactly the claimed length. -/
def Job.WellFormed (job : Job) : Prop :=
  job.len % recordAlign = 0 ∧ padMinLen ≤ job.len ∧ job.len ≤ maxRecordLen ∧
    ∃ bytes : UInt32 → Bytes, Encodes job.len bytes job.encode ∧
      ∀ s, (bytes s).length = job.len ∧ WellFramed (bytes s)

/-- The scheduler starts only well-formed pushes. -/
def SpscAct.WellFormed : SpscAct → Prop
  | .push job => job.WellFormed
  | _ => True

/-- The push of an event. -/
def eventJob (dbg : Bool) (vnanos : UInt64) (extraFlags : UInt8) (ev : EventPayload) : Job :=
  { len := encodedEventLen ev
    encode := fun seq => encodeEvent dbg seq vnanos extraFlags ev }

theorem eventJob_wellFormed (dbg : Bool) (vnanos : UInt64) (extraFlags : UInt8)
    (ev : EventPayload) (hev : ev.Encodable) :
  (eventJob dbg vnanos extraFlags ev).WellFormed
  := by
  obtain ⟨hmin, hmax⟩ := encodedEventLen_bounds hev
  refine ⟨encodedEventLen_mod ev, Nat.le_trans (by decide) hmin, Nat.le_trans hmax (by decide), _,
    encodes_event dbg vnanos extraFlags hev, ?_⟩
  intro seq
  exact ⟨length_eventBytes .., wellFramed_eventBytes hev⟩

/-- The address holds a byte of a published record that was not consumed. -/
def Unconsumed (r : RingMap) (m : ByteMem) (a : Nat) : Prop :=
  ∃ k, k < (used (m.u32 r.prod) (m.u32 r.cons)).toNat ∧
    a = r.data + ((m.u32 r.cons).toNat + k) % r.size.toNat

/-- The record a step popped. -/
def SpscOut.received (o : SpscOut) : List Bytes :=
  match o.popped with
  | some (.ok (some rec)) => [rec]
  | _ => []

/-- A step that respects the ownership of the bytes: the producer writes beside the
unconsumed records, the consumer copies bytes of them only, and no pop fails. -/
structure SpscOut.Safe (r : RingMap) (m : ByteMem) (o : SpscOut) : Prop where
  wrote : ∀ a n, o.wrote = some (a, n) → ∀ i < n, ¬ Unconsumed r m (a + i)
  copied : ∀ a n, o.copied = some (a, n) → ∀ i < n, Unconsumed r m (a + i)
  popped : ∀ res, o.popped = some res → ∃ rec, res = .ok rec

/-- The memory changed in the index cells and where the step says it wrote, and nowhere
else. -/
def SpscOut.Accounts (r : RingMap) (m m' : ByteMem) (o : SpscOut) : Prop :=
  ∀ i, m' i = m i ∨ (r.prod ≤ i ∧ i < r.prod + 4) ∨ (r.cons ≤ i ∧ i < r.cons + 4) ∨
    ∃ a n, o.wrote = some (a, n) ∧ a ≤ i ∧ i < a + n

/-- The records published in a run. -/
def publishedIn (tr : List (SpscAct × SpscOut)) : List Bytes := tr.flatMap fun a => a.2.published

/-- The records popped in a run. -/
def poppedIn (tr : List (SpscAct × SpscOut)) : List Bytes := tr.flatMap fun a => a.2.received

/-! ### Records written ahead of the producer index -/

/-- `Pending r m recs new`: the ring holds the records `recs`, and behind the producer
index the records `new` are written but not published. -/
structure Pending (r : RingMap) (m : ByteMem) (recs new : List Bytes) : Prop where
  queue : Queue r m recs
  room : Circular.span recs + Circular.span new ≤ r.size.toNat
  laid : Circular.Laid m r.data r.size.toNat (m.u32 r.prod).toNat new
  framed : ∀ rec ∈ new, WellFramed rec

section Pending

variable {r : RingMap} {m : ByteMem} {recs new : List Bytes}

/-- Nothing is written ahead. -/
theorem pending_nil (hq : Queue r m recs) :
  Pending r m recs []
  := ⟨hq, by simpa using hq.span_le, trivial, by simp⟩

/-- The offset behind what was written, as a residue of an unbounded position. -/
theorem Pending.pos_mod (h : Pending r m recs new) :
  (m.u32 r.prod + UInt32.ofNat (Circular.span new)).toNat % r.size.toNat
    = ((m.u32 r.cons).toNat + Circular.span recs + Circular.span new) % r.size.toNat
  := by
  rw [Word.toNat_add_mod r.size_pow, Nat.add_mod, h.queue.prod_mod, ← Nat.add_mod]

/-- The free bytes behind what was written hold no unconsumed byte. -/
theorem Pending.beside {n : Nat} {pos : UInt32} (h : Pending r m recs new)
    (hpos : pos = m.u32 r.prod + UInt32.ofNat (Circular.span new))
    (hend : pos.toNat % r.size.toNat + n ≤ r.size.toNat)
    (hfree : Circular.span recs + Circular.span new + n ≤ r.size.toNat) :
  ∀ i < n, ¬ Unconsumed r m (r.data + pos.toNat % r.size.toNat + i)
  := by
  rintro i hi ⟨k, hk, haddr⟩
  rw [h.queue.used_eq] at hk
  rw [hpos, h.pos_mod] at hend haddr
  have hout := Circular.mod_outside (i := (m.u32 r.cons).toNat + k) hend (by omega) (by omega)
  omega

/-- A record written behind the pending ones is pending too. -/
theorem Pending.write {bs : Bytes} {pos : UInt32} (h : Pending r m recs new)
    (hpos : pos = m.u32 r.prod + UInt32.ofNat (Circular.span new))
    (hend : pos.toNat % r.size.toNat + bs.length ≤ r.size.toNat)
    (hfree : Circular.span recs + Circular.span new + bs.length ≤ r.size.toNat)
    (hframed : WellFramed bs) :
  Pending r (m.write (r.data + pos.toNat % r.size.toNat) bs) recs (new ++ [bs])
  := by
  have hmod := h.pos_mod
  rw [← hpos] at hmod
  have hprod : (m.write (r.data + pos.toNat % r.size.toNat) bs).u32 r.prod = m.u32 r.prod := by
    have hsep := r.prod_sep
    apply ByteMem.u32_write_outside
    omega
  have hcons : (m.write (r.data + pos.toNat % r.size.toNat) bs).u32 r.cons = m.u32 r.cons := by
    have hsep := r.cons_sep
    apply ByteMem.u32_write_outside
    omega
  -- published and pending records together lie in one circle from the consumer index on
  have hall : Circular.Laid m r.data r.size.toNat (m.u32 r.cons).toNat (recs ++ new) := by
    rw [Circular.laid_append, Circular.laid_mod_congr h.queue.prod_mod.symm]
    refine ⟨h.queue.laid, h.laid⟩
  have hlaid : Circular.Laid (m.write (r.data + pos.toNat % r.size.toNat) bs) r.data
      r.size.toNat (m.u32 r.cons).toNat (recs ++ new ++ [bs]) := by
    rw [Circular.laid_append]
    constructor
    · rw [hmod] at hend ⊢
      apply Circular.laid_write hend _ _ hall
      · rw [Circular.span_append]
        omega
      · omega
    · have hplace : ((m.u32 r.cons).toNat + Circular.span (recs ++ new)) % r.size.toNat
          = pos.toNat % r.size.toNat := by
        rw [hmod, Circular.span_append, Nat.add_assoc]
      rw [Circular.laid_mod_congr hplace]
      apply Circular.laid_write_self hend
  rw [List.append_assoc, Circular.laid_append, Circular.laid_mod_congr h.queue.prod_mod.symm]
    at hlaid
  constructor
  · constructor
    · exact h.queue.span_le
    · rw [hprod, hcons, h.queue.prod_eq]
    · rw [hcons]
      exact hlaid.1
    · exact h.queue.framed
    · rw [hcons]
      exact h.queue.aligned
  · simp only [Circular.span_append, Circular.span_cons, Circular.span_nil]
    omega
  · rw [hprod]
    exact hlaid.2
  · intro rec hrec
    rcases List.mem_append.mp hrec with hrec | hrec
    · apply h.framed rec hrec
    · rw [List.mem_singleton] at hrec
      rw [hrec]
      exact hframed

/-- Storing the producer index publishes the pending records. -/
theorem Pending.publish (h : Pending r m recs new) :
  Queue r (m.write r.prod (Bytes.ofU32 (m.u32 r.prod + UInt32.ofNat (Circular.span new))))
    (recs ++ new)
  := by
  have hcons : (m.write r.prod (Bytes.ofU32 (m.u32 r.prod
      + UInt32.ofNat (Circular.span new)))).u32 r.cons = m.u32 r.cons :=
    ByteMem.u32_write_outside (by simpa using r.cell_sep.symm)
  constructor
  · rw [Circular.span_append]
    exact h.room
  · rw [ByteMem.u32_write_self, hcons, h.queue.prod_eq, Word.add_ofNat_add, Circular.span_append]
  · rw [hcons]
    apply Circular.laid_write_outside r.size_pos (by simpa using r.prod_sep)
    rw [Circular.laid_append, Circular.laid_mod_congr h.queue.prod_mod.symm]
    refine ⟨h.queue.laid, h.laid⟩
  · intro rec hrec
    rcases List.mem_append.mp hrec with hrec | hrec
    · apply h.queue.framed rec hrec
    · apply h.framed rec hrec
  · rw [hcons]
    exact h.queue.aligned

/-- Taking the first record away leaves the pending ones in place. -/
theorem Pending.advance {rec : Bytes} (h : Pending r m (rec :: recs) new) :
  Pending r (m.write r.cons (Bytes.ofU32 (m.u32 r.cons + UInt32.ofNat rec.length))) recs new
  := by
  have hroom := h.room
  rw [Circular.span_cons] at hroom
  refine ⟨h.queue.advance, by omega, ?_, h.framed⟩
  rw [ByteMem.u32_write_outside (by simpa using r.cell_sep)]
  apply Circular.laid_write_outside r.size_pos (by simpa using r.cons_sep) h.laid

/-- The bytes of the first record are unconsumed. -/
theorem unconsumed_first {rec : Bytes} (hq : Queue r m (rec :: recs)) {n : Nat}
    (hn : n ≤ rec.length) :
  ∀ i < n, Unconsumed r m (r.data + (m.u32 r.cons).toNat % r.size.toNat + i)
  := by
  intro i hi
  have hend := hq.laid.1
  refine ⟨i, ?_, ?_⟩
  · rw [hq.used_eq, Circular.span_cons]
    omega
  · rw [Circular.add_mod_of_lt (by omega), Nat.add_assoc]

end Pending

/-! ### The invariant -/

/-- The records a push has written and not yet published. -/
def ProducerPc.written : ProducerPc → List Bytes
  | .writeRecord _ _ _ written => written
  | .publish _ _ written => written
  | _ => []

/-- What a push knows at each of its steps.  The index it read of the consumer may be
old by now, but the room it saw is still there. -/
def ProducerPc.Inv (r : RingMap) (m : ByteMem) (recs : List Bytes) : ProducerPc → Prop
  | .idle => True
  | .loadCons job prod => prod = m.u32 r.prod ∧ job.WellFormed
  | .writePad job prod =>
      prod = m.u32 r.prod ∧ job.WellFormed ∧ r.tail prod < job.len ∧
        Circular.span recs + (r.tail prod + job.len) ≤ r.size.toNat
  | .writeRecord job prod pos written =>
      prod = m.u32 r.prod ∧ job.WellFormed ∧
        pos = prod + UInt32.ofNat (Circular.span written) ∧
        pos.toNat % r.size.toNat + job.len ≤ r.size.toNat ∧
        Circular.span recs + Circular.span written + job.len ≤ r.size.toNat ∧
        bytesNeeded prod r.size (UInt32.ofNat job.len)
          = UInt32.ofNat (Circular.span written + job.len)
  | .publish prod needed written =>
      prod = m.u32 r.prod ∧ needed = UInt32.ofNat (Circular.span written)
  | .panicked => False

/-- What a pop knows at each of its steps.  The index it read of the producer may be old
by now, but the records in front of it are still there. -/
def ConsumerPc.Inv (r : RingMap) (m : ByteMem) (recs : List Bytes) (scratch : Bytes) :
    ConsumerPc → Prop
  | .idle => True
  | .loadCons prod =>
      ∃ seen, seen <+: recs ∧ prod = m.u32 r.cons + UInt32.ofNat (Circular.span seen)
  | .peek prod cons =>
      cons = m.u32 r.cons ∧ ∃ rec seen, rec :: seen <+: recs ∧
        prod = cons + UInt32.ofNat (Circular.span (rec :: seen))
  | .copy cons len =>
      cons = m.u32 r.cons ∧ ∃ rec rest, recs = rec :: rest ∧ len = rec.length
  | .publish cons len =>
      cons = m.u32 r.cons ∧ ∃ rec rest, recs = rec :: rest ∧ len = rec.length ∧
        scratch.take len = rec
  | .panicked => False

/-- The invariant of the system: the ring holds the records `recs`, and each side may
rely on what it has read. -/
structure SpscInv (r : RingMap) (s : SpscState) (recs : List Bytes) : Prop where
  pending : Pending r s.mem recs s.producer.written
  producer : s.producer.Inv r s.mem recs
  consumer : s.consumer.Inv r s.mem recs s.scratch
  scratch : s.scratch.length = maxRecordLen

/-- A step keeps the invariant for some records; those published and those popped account
for the difference; the step is safe, and it shows what it wrote. -/
def Keeps (r : RingMap) (m : ByteMem) (recs : List Bytes) (out : SpscState × SpscOut) : Prop :=
  ∃ recs', SpscInv r out.1 recs' ∧ recs ++ out.2.published = out.2.received ++ recs' ∧
    out.2.Safe r m ∧ out.2.Accounts r m out.1.mem

section Steps

variable {dbg : Bool} {r : RingMap} {s : SpscState} {m m' : ByteMem} {recs recs' : List Bytes}

/-- A push may rely on what it knows while the consumer takes records away. -/
theorem ProducerPc.Inv.shrink {pc : ProducerPc} (hprod : m'.u32 r.prod = m.u32 r.prod)
    (hspan : Circular.span recs' ≤ Circular.span recs) (h : pc.Inv r m recs) :
  pc.Inv r m' recs'
  := by
  cases pc with
  | idle => trivial
  | loadCons job prod =>
      rw [ProducerPc.Inv, hprod]
      exact h
  | writePad job prod =>
      obtain ⟨hcell, hjob, htail, hroom⟩ := h
      refine ⟨by rw [hprod, hcell], hjob, htail, by omega⟩
  | writeRecord job prod pos written =>
      obtain ⟨hcell, hjob, hpos, hend, hroom, hneeded⟩ := h
      refine ⟨by rw [hprod, hcell], hjob, hpos, hend, by omega, hneeded⟩
  | publish prod needed written =>
      rw [ProducerPc.Inv, hprod]
      exact h
  | panicked => exact h

/-- A pop may rely on what it knows while the producer adds records. -/
theorem ConsumerPc.Inv.extend {pc : ConsumerPc} {scratch : Bytes}
    (hcons : m'.u32 r.cons = m.u32 r.cons) (hrecs : recs <+: recs')
    (h : pc.Inv r m recs scratch) :
  pc.Inv r m' recs' scratch
  := by
  obtain ⟨new, rfl⟩ := hrecs
  cases pc with
  | idle => trivial
  | loadCons prod =>
      obtain ⟨seen, hseen, hprod⟩ := h
      refine ⟨seen, hseen.trans (List.prefix_append _ _), by rw [hcons, hprod]⟩
  | peek prod cons =>
      obtain ⟨hcell, rec, seen, hseen, hprod⟩ := h
      refine ⟨by rw [hcons, hcell], rec, seen, hseen.trans (List.prefix_append _ _), hprod⟩
  | copy cons len =>
      obtain ⟨hcell, rec, rest, rfl, hlen⟩ := h
      refine ⟨by rw [hcons, hcell], rec, rest ++ new, rfl, hlen⟩
  | publish cons len =>
      obtain ⟨hcell, rec, rest, rfl, hlen, htake⟩ := h
      refine ⟨by rw [hcons, hcell], rec, rest ++ new, rfl, hlen, htake⟩
  | panicked => exact h

/-- A step that shows nothing is safe. -/
theorem safe_silent :
  SpscOut.silent.Safe r m
  := by
  constructor
  · intro a n h
    cases h
  · intro a n h
    cases h
  · intro res h
    cases h

/-- A silent step that keeps the records. -/
theorem SpscInv.keeps_silent {t : SpscState} (h : SpscInv r t recs) (hmem : t.mem = m) :
  Keeps r m recs (t, .silent)
  := by
  refine ⟨recs, h, by simp [SpscOut.silent, SpscOut.received], safe_silent, ?_⟩
  intro i
  left
  rw [hmem]

/-- Beginning a push. -/
theorem SpscInv.beginPush (h : SpscInv r s recs) {job : Job} (hjob : job.WellFormed) :
  Keeps r s.mem recs (Protocol.beginPush dbg r s job, .silent)
  := by
  obtain ⟨hmod, hmin, hmax, _⟩ := id hjob
  rw [Protocol.beginPush]
  split
  next hpc =>
      rw [if_neg (by tauto)]
      have hpending := h.pending
      rw [hpc] at hpending
      exact SpscInv.keeps_silent ⟨hpending, ⟨rfl, hjob⟩, h.consumer, h.scratch⟩ rfl
  next => exact h.keeps_silent rfl

/-- Beginning a pop: every record that is published now will be seen. -/
theorem SpscInv.beginPop (h : SpscInv r s recs) :
  Keeps r s.mem recs (Protocol.beginPop r s, .silent)
  := by
  rw [Protocol.beginPop]
  split
  next =>
      refine SpscInv.keeps_silent ⟨h.pending, h.producer, ⟨recs, List.prefix_refl _, ?_⟩,
        h.scratch⟩ rfl
      exact h.pending.queue.prod_eq
  next => exact h.keeps_silent rfl

/-- Reading the consumer index: the free bytes it shows are free. -/
theorem SpscInv.loadConsStep (h : SpscInv r s recs) {job : Job} {prod : UInt32}
    (hpc : s.producer = .loadCons job prod) :
  Keeps r s.mem recs (producerStep dbg r s)
  := by
  have hpending := h.pending
  have hinv := h.producer
  rw [hpc] at hpending hinv
  obtain ⟨rfl, hjob⟩ := hinv
  obtain ⟨_, _, hmax, _⟩ := id hjob
  have hmax' : job.len ≤ 4096 := hmax
  have hq := hpending.queue
  have hneeded := r.toNat_bytesNeeded (s.mem.u32 r.prod) hmax
  have hlen : (UInt32.ofNat job.len).toNat = job.len := Word.toNat_ofNat_le hmax' (by decide)
  have hfree := hq.free_eq
  have hspan := hq.span_le
  obtain ⟨_, htail⟩ := r.tail_rules hq.prod_aligned
  simp only [padMinLen] at htail
  simp only [producerStep, hpc]
  split
  next => exact SpscInv.keeps_silent ⟨hpending, trivial, h.consumer, h.scratch⟩ rfl
  next hroom =>
      rw [UInt32.lt_iff_toNat_lt, hfree, hneeded] at hroom
      split
      next hpad =>
          rw [gt_iff_lt, UInt32.lt_iff_toNat_lt, hneeded, hlen] at hpad
          apply SpscInv.keeps_silent _ rfl
          refine ⟨hpending, ⟨rfl, hjob, ?_, ?_⟩, h.consumer, h.scratch⟩
          · grind
          · grind
      next hpad =>
          rw [gt_iff_lt, UInt32.lt_iff_toNat_lt, hneeded, hlen] at hpad
          have hfits : job.len ≤ r.tail (s.mem.u32 r.prod) := by grind
          have hlt := Nat.mod_lt (s.mem.u32 r.prod).toNat r.size_pos
          rw [if_pos hfits] at hneeded hroom
          apply SpscInv.keeps_silent _ rfl
          refine ⟨hpending, ⟨rfl, hjob, ?_, ?_, ?_, ?_⟩, h.consumer, h.scratch⟩
          · simp
          · rw [RingMap.tail] at hfits
            omega
          · rw [Circular.span_nil]
            omega
          · rw [← UInt32.toNat_inj, hneeded, Circular.span_nil, Nat.zero_add, hlen]

/-- A write behind what the push has written so far takes free bytes only. -/
theorem SpscInv.write (h : SpscInv r s recs) {bs : Bytes} {pos seq : UInt32} {pc : ProducerPc}
    (hpos : pos = s.mem.u32 r.prod + UInt32.ofNat (Circular.span s.producer.written))
    (hend : pos.toNat % r.size.toNat + bs.length ≤ r.size.toNat)
    (hfree : Circular.span recs + Circular.span s.producer.written + bs.length ≤ r.size.toNat)
    (hframed : WellFramed bs) (hwritten : pc.written = s.producer.written ++ [bs])
    (hpc : pc.Inv r s.mem recs) :
  Keeps r s.mem recs
    ({ s with
        mem := s.mem.write (r.data + pos.toNat % r.size.toNat) bs
        nextSeq := seq
        producer := pc },
      { SpscOut.silent with wrote := some (r.data + pos.toNat % r.size.toNat, bs.length) })
  := by
  have hprod := r.prod_sep
  have hcons := r.cons_sep
  refine ⟨recs, ⟨?_, ?_, ?_, h.scratch⟩, ?_, ⟨?_, ?_, ?_⟩, ?_⟩
  · rw [hwritten]
    apply h.pending.write hpos hend hfree hframed
  · apply hpc.shrink _ (Nat.le_refl _)
    apply ByteMem.u32_write_outside
    omega
  · apply h.consumer.extend _ (List.prefix_refl _)
    apply ByteMem.u32_write_outside
    omega
  · simp [SpscOut.silent, SpscOut.received]
  · intro a n hwrote
    simp only [Option.some.injEq, Prod.mk.injEq] at hwrote
    obtain ⟨rfl, rfl⟩ := hwrote
    apply h.pending.beside hpos hend hfree
  · intro a n hcopied
    cases hcopied
  · intro res hres
    cases hres
  · intro i
    rcases ByteMem.write_apply_or s.mem (r.data + pos.toNat % r.size.toNat) i bs with hi | hi
    · left
      exact hi
    · right
      right
      right
      exact ⟨_, _, rfl, hi⟩

/-- Filling the tail: the record then fits in front of the end of the ring. -/
theorem SpscInv.writePadStep (h : SpscInv r s recs) {job : Job} {prod : UInt32}
    (hpc : s.producer = .writePad job prod) :
  Keeps r s.mem recs (producerStep dbg r s)
  := by
  have hwritten : s.producer.written = [] := by
    rw [hpc]
    rfl
  have hinv := h.producer
  rw [hpc] at hinv
  obtain ⟨rfl, hjob, hshort, hroom⟩ := hinv
  obtain ⟨_, _, hmax, _⟩ := id hjob
  have hmax' : job.len ≤ 4096 := hmax
  have hsize : 4096 ≤ r.size.toNat := r.size_ge
  have haligned := h.pending.queue.prod_aligned
  have hneeded := r.toNat_bytesNeeded (s.mem.u32 r.prod) hmax
  obtain ⟨htmod, htmin⟩ := r.tail_rules haligned
  have hlt := Nat.mod_lt (s.mem.u32 r.prod).toNat r.size_pos
  have hdef : r.tail (s.mem.u32 r.prod)
      = r.size.toNat - (s.mem.u32 r.prod).toNat % r.size.toNat := rfl
  have htail : r.tail (s.mem.u32 r.prod) < maxRecordLen := by omega
  have hpad := length_padBytes s.nextSeq htmin
  have hread : (s.mem.write (r.data + (s.mem.u32 r.prod).toNat % r.size.toNat)
      (padBytes (r.tail (s.mem.u32 r.prod)) s.nextSeq)).read
        (r.data + (s.mem.u32 r.prod).toNat % r.size.toNat) (r.tail (s.mem.u32 r.prod))
      = padBytes (r.tail (s.mem.u32 r.prod)) s.nextSeq := by
    nth_rewrite 2 [← hpad]
    apply ByteMem.read_write_self
  have hstep : producerStep dbg r s
      = ({ s with
            mem := s.mem.write (r.data + (s.mem.u32 r.prod).toNat % r.size.toNat)
              (padBytes (r.tail (s.mem.u32 r.prod)) s.nextSeq)
            nextSeq := s.nextSeq + 1
            producer := .writeRecord job (s.mem.u32 r.prod)
              (s.mem.u32 r.prod + UInt32.ofNat (r.tail (s.mem.u32 r.prod)))
              [padBytes (r.tail (s.mem.u32 r.prod)) s.nextSeq] },
          { SpscOut.silent with
              wrote := some (r.data + (s.mem.u32 r.prod).toNat % r.size.toNat,
                (padBytes (r.tail (s.mem.u32 r.prod)) s.nextSeq).length) }) := by
    rw [producerStep, hpc]
    simp only [run_padTail (fun _ => htmod) htmin htail, r.mask_toNat, r.toNat_contiguousTail,
      hread, hpad]
  rw [hstep]
  apply h.write
  · simp [hwritten]
  · omega
  · rw [hwritten, Circular.span_nil]
    omega
  · apply wellFramed_padBytes _ htmod htmin
    omega
  · rw [hwritten]
    rfl
  · refine ⟨rfl, hjob, ?_, ?_, ?_, ?_⟩
    · simp [hpad]
    · -- behind the `Pad` the offset is zero
      rw [Word.toNat_add_mod r.size_pow, r.add_tail_mod]
      omega
    · simp [hpad]
      omega
    · rw [if_neg (by omega)] at hneeded
      rw [← UInt32.toNat_inj, hneeded]
      simp only [Circular.span_cons, Circular.span_nil, hpad]
      rw [Word.toNat_ofNat_le (Nat.le_refl _) (by omega)]
      rfl

/-- Writing the record. -/
theorem SpscInv.writeRecordStep (h : SpscInv r s recs) {job : Job} {prod pos : UInt32}
    {written : List Bytes} (hpc : s.producer = .writeRecord job prod pos written) :
  Keeps r s.mem recs (producerStep dbg r s)
  := by
  have hwritten : s.producer.written = written := by
    rw [hpc]
    rfl
  have hinv := h.producer
  rw [hpc] at hinv
  obtain ⟨rfl, hjob, hpos, hend, hroom, hneeded⟩ := hinv
  obtain ⟨_, _, _, bytes, henc, hbytes⟩ := hjob
  obtain ⟨hlen, hframed⟩ := hbytes s.nextSeq
  have hread : (s.mem.write (r.data + pos.toNat % r.size.toNat) (bytes s.nextSeq)).read
      (r.data + pos.toNat % r.size.toNat) job.len = bytes s.nextSeq := by
    rw [← hlen]
    apply ByteMem.read_write_self
  have hstep : producerStep dbg r s
      = ({ s with
            mem := s.mem.write (r.data + pos.toNat % r.size.toNat) (bytes s.nextSeq)
            nextSeq := s.nextSeq + 1
            producer := .publish (s.mem.u32 r.prod)
              (bytesNeeded (s.mem.u32 r.prod) r.size (UInt32.ofNat job.len))
              (written ++ [bytes s.nextSeq]) },
          { SpscOut.silent with
              wrote := some (r.data + pos.toNat % r.size.toNat, (bytes s.nextSeq).length) }) := by
    rw [producerStep, hpc]
    simp only [run_placeRecord henc hend, r.mask_toNat, hread, hlen]
  rw [hstep]
  apply h.write
  · rw [hwritten]
    exact hpos
  · rw [hlen]
    exact hend
  · rw [hwritten, hlen]
    exact hroom
  · exact hframed
  · rw [hwritten]
    rfl
  · refine ⟨rfl, ?_⟩
    simp [hneeded, hlen]

/-- Publishing: what was written joins the queue. -/
theorem SpscInv.publishStep (h : SpscInv r s recs) {prod needed : UInt32} {written : List Bytes}
    (hpc : s.producer = .publish prod needed written) :
  Keeps r s.mem recs (producerStep dbg r s)
  := by
  have hpending := h.pending
  have hinv := h.producer
  rw [hpc] at hpending hinv
  obtain ⟨rfl, rfl⟩ := hinv
  simp only [producerStep, hpc]
  refine ⟨recs ++ written, ⟨?_, trivial, ?_, h.scratch⟩, ?_, ?_, ?_⟩
  · apply pending_nil
    apply hpending.publish
  · apply h.consumer.extend _ (List.prefix_append _ _)
    apply ByteMem.u32_write_outside
    simpa using r.cell_sep.symm
  · simp [SpscOut.silent, SpscOut.received]
  · have hsilent := safe_silent (r := r) (m := s.mem)
    exact ⟨hsilent.wrote, hsilent.copied, hsilent.popped⟩
  · intro i
    have hi := ByteMem.write_apply_or s.mem r.prod i (Bytes.ofU32 (s.mem.u32 r.prod
      + UInt32.ofNat (Circular.span written)))
    rw [Bytes.length_ofU32] at hi
    tauto

/-- Every step of a push keeps the invariant. -/
theorem SpscInv.producerStep (h : SpscInv r s recs) :
  Keeps r s.mem recs (Protocol.producerStep dbg r s)
  := by
  cases hpc : s.producer with
  | idle =>
      rw [Protocol.producerStep, hpc]
      exact h.keeps_silent rfl
  | loadCons job prod => exact h.loadConsStep hpc
  | writePad job prod => exact h.writePadStep hpc
  | writeRecord job prod pos written => exact h.writeRecordStep hpc
  | publish prod needed written => exact h.publishStep hpc
  | panicked =>
      have hinv := h.producer
      rw [hpc] at hinv
      exact absurd hinv id

/-- The length of the first record bounds the bytes in front of the end of the ring. -/
theorem length_le_tail {rec : Bytes} (hq : Queue r m (rec :: recs)) :
  rec.length ≤ (contiguousTail (m.u32 r.cons) r.size).toNat
  := by
  have hend := hq.laid.1
  rw [r.toNat_contiguousTail, RingMap.tail]
  omega

/-- A pop that ends with a value and changes no memory. -/
theorem SpscInv.keeps_pop (h : SpscInv r s recs) :
  Keeps r s.mem recs ({ s with consumer := .idle }, .pop (.ok none))
  := by
  refine ⟨recs, ⟨h.pending, h.producer, trivial, h.scratch⟩, ?_, ⟨?_, ?_, ?_⟩,
    fun _ => Or.inl rfl⟩
  · simp [SpscOut.pop, SpscOut.silent, SpscOut.received]
  · intro a n hwrote
    cases hwrote
  · intro a n hcopied
    cases hcopied
  · intro res hres
    cases hres
    exact ⟨_, rfl⟩

/-- Reading the own index: the pop ends on an empty ring, and else a record is there. -/
theorem SpscInv.loadProdStep (h : SpscInv r s recs) {prod : UInt32}
    (hpc : s.consumer = .loadCons prod) :
  Keeps r s.mem recs (consumerStep dbg r s)
  := by
  have hq := h.pending.queue
  have hinv := h.consumer
  rw [hpc] at hinv
  obtain ⟨seen, ⟨rest, rfl⟩, rfl⟩ := hinv
  have hspan := hq.span_le
  rw [Circular.span_append] at hspan
  have hused : (used (s.mem.u32 r.cons + UInt32.ofNat (Circular.span seen))
      (s.mem.u32 r.cons)).toNat = Circular.span seen := by
    rw [used, Word.add_ofNat_sub, Word.toNat_ofNat_le (by omega) r.size_lt]
  simp only [consumerStep, hpc]
  cases seen with
  | nil =>
      have hzero : used (s.mem.u32 r.cons + UInt32.ofNat (Circular.span [])) (s.mem.u32 r.cons)
          = 0 := by
        rw [← UInt32.toNat_inj, hused]
        rfl
      rw [if_pos hzero]
      exact h.keeps_pop
  | cons rec seen =>
      obtain ⟨_, hmin, _⟩ := (hq.framed rec (by simp)).rules
      have htail := length_le_tail hq
      have hscratch : s.scratch.length = 4096 := h.scratch
      have hpad : padMinLen = 8 := rfl
      have hspan' := Circular.span_cons rec seen
      rw [if_neg, if_neg]
      · apply SpscInv.keeps_silent _ rfl
        refine ⟨h.pending, h.producer, ⟨rfl, rec, seen, List.prefix_append _ _, rfl⟩, h.scratch⟩
      · omega
      · rw [← UInt32.toNat_inj, hused, UInt32.toNat_zero]
        omega

/-- Copying from the first record, which stays where it is. -/
theorem SpscInv.copy {rec : Bytes} (h : SpscInv r s (rec :: recs)) {pc : ConsumerPc}
    {scratch : Bytes} {n : Nat} (hn : n ≤ rec.length) (hscratch : scratch.length = maxRecordLen)
    (hpc : pc.Inv r s.mem (rec :: recs) scratch) :
  Keeps r s.mem (rec :: recs)
    ({ s with scratch := scratch, consumer := pc },
      { SpscOut.silent with
          copied := some (r.data + (s.mem.u32 r.cons).toNat % r.size.toNat, n) })
  := by
  refine ⟨rec :: recs, ⟨h.pending, h.producer, hpc, hscratch⟩, ?_, ⟨?_, ?_, ?_⟩,
    fun _ => Or.inl rfl⟩
  · simp [SpscOut.silent, SpscOut.received]
  · intro a n hwrote
    cases hwrote
  · intro a n hcopied
    simp only [Option.some.injEq, Prod.mk.injEq] at hcopied
    obtain ⟨rfl, rfl⟩ := hcopied
    apply unconsumed_first h.pending.queue hn
  · intro res hres
    cases hres

/-- Peeking at the length. -/
theorem SpscInv.peekStep (h : SpscInv r s recs) {prod cons : UInt32}
    (hpc : s.consumer = .peek prod cons) :
  Keeps r s.mem recs (consumerStep dbg r s)
  := by
  have hinv := h.consumer
  rw [hpc] at hinv
  obtain ⟨rfl, rec, seen, ⟨rest, rfl⟩, rfl⟩ := hinv
  have hq := h.pending.queue
  have hframed := hq.framed rec (by simp)
  obtain ⟨_, hmin, hmax⟩ := hframed.rules
  have hspan := hq.span_le
  rw [Circular.span_append] at hspan
  have hused : (used (s.mem.u32 r.cons + UInt32.ofNat (Circular.span (rec :: seen)))
      (s.mem.u32 r.cons)).toNat = Circular.span (rec :: seen) := by
    rw [used, Word.add_ofNat_sub, Word.toNat_ofNat_le (by omega) r.size_lt]
  have havail : rec.length ≤ (used (s.mem.u32 r.cons
      + UInt32.ofNat (Circular.span (rec :: seen))) (s.mem.u32 r.cons)).toNat := by
    rw [hused, Circular.span_cons]
    omega
  rw [consumerStep, hpc]
  simp only [run_peekLen hq.laid hframed havail (length_le_tail hq)
    (Nat.le_of_eq h.scratch.symm), r.mask_toNat]
  apply h.copy hmin
  · have hscratch : s.scratch.length = 4096 := h.scratch
    simp only [padMinLen, maxRecordLen] at hmin ⊢
    simp
    omega
  · exact ⟨rfl, rec, seen ++ rest, rfl, rfl⟩

/-- Copying the record. -/
theorem SpscInv.copyStep (h : SpscInv r s recs) {cons : UInt32} {len : Nat}
    (hpc : s.consumer = .copy cons len) :
  Keeps r s.mem recs (consumerStep dbg r s)
  := by
  have hinv := h.consumer
  rw [hpc] at hinv
  obtain ⟨rfl, rec, rest, rfl, rfl⟩ := hinv
  have hq := h.pending.queue
  have hframed := hq.framed rec (by simp)
  obtain ⟨_, _, hmax⟩ := hframed.rules
  rw [consumerStep, hpc]
  simp only [run_copyRecord hq.laid hframed, r.mask_toNat]
  apply h.copy (Nat.le_refl _)
  · have hscratch : s.scratch.length = 4096 := h.scratch
    simp only [maxRecordLen] at hmax ⊢
    simp
    omega
  · exact ⟨rfl, rec, rest, rfl, rfl, by simp⟩

/-- Handing the bytes back to the producer. -/
theorem SpscInv.advanceStep (h : SpscInv r s recs) {cons : UInt32} {len : Nat}
    (hpc : s.consumer = .publish cons len) :
  Keeps r s.mem recs (consumerStep dbg r s)
  := by
  have hinv := h.consumer
  rw [hpc] at hinv
  obtain ⟨rfl, rec, rest, rfl, rfl, htake⟩ := hinv
  simp only [consumerStep, hpc]
  refine ⟨rest, ⟨h.pending.advance, ?_, trivial, h.scratch⟩, ?_, ⟨?_, ?_, ?_⟩, ?_⟩
  · apply h.producer.shrink
    · apply ByteMem.u32_write_outside
      simpa using r.cell_sep
    · rw [Circular.span_cons]
      omega
  · simp [SpscOut.pop, SpscOut.silent, SpscOut.received, htake]
  · intro a n hwrote
    cases hwrote
  · intro a n hcopied
    cases hcopied
  · intro res hres
    cases hres
    exact ⟨_, rfl⟩
  · intro i
    have hi := ByteMem.write_apply_or s.mem r.cons i (Bytes.ofU32 (s.mem.u32 r.cons
      + UInt32.ofNat rec.length))
    rw [Bytes.length_ofU32] at hi
    tauto

/-- Every step of a pop keeps the invariant. -/
theorem SpscInv.consumerStep (h : SpscInv r s recs) :
  Keeps r s.mem recs (Protocol.consumerStep dbg r s)
  := by
  cases hpc : s.consumer with
  | idle =>
      rw [Protocol.consumerStep, hpc]
      exact h.keeps_silent rfl
  | loadCons prod => exact h.loadProdStep hpc
  | peek prod cons => exact h.peekStep hpc
  | copy cons len => exact h.copyStep hpc
  | publish cons len => exact h.advanceStep hpc
  | panicked =>
      have hinv := h.consumer
      rw [hpc] at hinv
      exact absurd hinv id

/-- Every step of the system keeps the invariant. -/
theorem SpscInv.step (h : SpscInv r s recs) (dbg : Bool) {act : SpscAct}
    (hact : act.WellFormed) :
  Keeps r s.mem recs (spscStep dbg r s act)
  := by
  cases act with
  | push job => exact h.beginPush hact
  | producer => exact h.producerStep
  | pop => exact h.beginPop
  | consumer => exact h.consumerStep

end Steps

/-! ### Every interleaving -/

section Run

variable {dbg : Bool} {r : RingMap} {s : SpscState}

/-- What was published is what was popped and what is still there. -/
def SpscLog (r : RingMap) (s : SpscState) (tr : List (SpscAct × SpscOut)) : Prop :=
  (∃ recs, SpscInv r s recs ∧ publishedIn tr = poppedIn tr ++ recs) ∧
    ∀ a ∈ tr, ∀ res, a.2.popped = some res → ∃ rec, res = .ok rec

/-- A run keeps the account of the records. -/
theorem SpscLog.run (h : SpscLog r s []) (dbg : Bool) {acts : List SpscAct}
    (hacts : ∀ act ∈ acts, act.WellFormed) :
  SpscLog r (Machine.run (spscStep dbg r) s acts).1 (Machine.run (spscStep dbg r) s acts).2
  := by
  apply Machine.run_induction _ acts hacts h
  rintro s tr act hact ⟨⟨recs, hinv, hlog⟩, hfine⟩
  obtain ⟨recs', hinv', hstep, hsafe, _⟩ := hinv.step dbg hact
  refine ⟨⟨recs', hinv', ?_⟩, ?_⟩
  · simp only [publishedIn, poppedIn, List.flatMap_append, List.flatMap_cons, List.flatMap_nil,
      List.append_nil, List.append_assoc] at hlog ⊢
    rw [hlog, List.append_assoc, hstep]
  · intro a ha
    rcases List.mem_append.mp ha with ha | ha
    · apply hfine a ha
    · rw [List.mem_singleton] at ha
      subst ha
      exact hsafe.popped

/-- **One producer, one consumer, any interleaving.**  The records popped are a prefix of
those published; no pop fails and no side panics; and whatever step comes next, the
producer writes no byte of an unconsumed record, the consumer copies only such bytes, and
no other byte of the memory changes. -/
theorem spsc_interleaved (dbg : Bool) (r : RingMap) (s₀ : SpscState)
    (hempty : s₀.mem.u32 r.prod = s₀.mem.u32 r.cons)
    (haligned : (s₀.mem.u32 r.cons).toNat % 8 = 0)
    (hproducer : s₀.producer = .idle) (hconsumer : s₀.consumer = .idle)
    (hscratch : s₀.scratch.length = maxRecordLen)
    (acts : List SpscAct) (hacts : ∀ act ∈ acts, act.WellFormed)
    {s : SpscState} {tr : List (SpscAct × SpscOut)}
    (hrun : Machine.run (spscStep dbg r) s₀ acts = (s, tr)) :
  poppedIn tr <+: publishedIn tr ∧
    (∀ a ∈ tr, ∀ res, a.2.popped = some res → ∃ rec, res = .ok rec) ∧
    s.producer ≠ .panicked ∧ s.consumer ≠ .panicked ∧
    ∀ act, act.WellFormed → (spscStep dbg r s act).2.Safe r s.mem ∧
      (spscStep dbg r s act).2.Accounts r s.mem (spscStep dbg r s act).1.mem
  := by
  have hq : Queue r s₀.mem [] := by
    refine ⟨Nat.zero_le _, ?_, trivial, by simp, haligned⟩
    rw [hempty]
    simp
  have hstart : SpscInv r s₀ [] := by
    refine ⟨?_, ?_, ?_, hscratch⟩
    · rw [hproducer]
      exact pending_nil hq
    · rw [hproducer]
      trivial
    · rw [hconsumer]
      trivial
  have hlog : SpscLog r s₀ [] := ⟨⟨[], hstart, rfl⟩, by simp⟩
  have h := hlog.run dbg hacts
  rw [hrun] at h
  obtain ⟨⟨recs, hinv, hrecs⟩, hfine⟩ := h
  refine ⟨?_, hfine, ?_, ?_, ?_⟩
  · rw [hrecs]
    apply List.prefix_append
  · intro hpc
    have hbad := hinv.producer
    rw [hpc] at hbad
    exact hbad
  · intro hpc
    have hbad := hinv.consumer
    rw [hpc] at hbad
    exact hbad
  · intro act hact
    obtain ⟨_, _, _, hsafe, haccounts⟩ := hinv.step dbg hact
    exact ⟨hsafe, haccounts⟩

/-- The smallest ring, with its cells in front of the data area. -/
def smallestRing : RingMap where
  data := 8
  size := 4096
  prod := 0
  cons := 4
  size_pow := by decide
  size_ge := by decide
  prod_sep := by decide
  cons_sep := by decide
  cell_sep := by decide

/-- Both indices stand sixteen bytes in front of the wrap of `u32`. -/
def beforeWrap : SpscState where
  mem := ByteMem.ofBytes (Bytes.ofU32 0xFFFFFFF0 ++ Bytes.ofU32 0xFFFFFFF0)
  nextSeq := 7
  producer := .idle
  scratch := Bytes.zeros maxRecordLen
  consumer := .idle

/-- Two pops begin while an event is pushed across the end of the ring. -/
def crossing : List SpscAct :=
  [.push (eventJob true 3 0 (.frameMark 5)), .producer, .pop, .producer, .producer, .consumer,
    .producer, .pop, .consumer, .consumer, .consumer, .consumer]

theorem spsc_interleaved_crossing :
  poppedIn (Machine.run (spscStep true smallestRing) beforeWrap crossing).2
    <+: publishedIn (Machine.run (spscStep true smallestRing) beforeWrap crossing).2
  := by
  have hacts : ∀ act ∈ crossing, act.WellFormed := by
    have hjob := eventJob_wellFormed true 3 0 (.frameMark 5) trivial
    simp [crossing, SpscAct.WellFormed, hjob]
  have h := spsc_interleaved true smallestRing beforeWrap (by decide) (by decide) rfl rfl
    (by simp [beforeWrap]) crossing hacts (Prod.eta _).symm
  exact h.1

end Run

end Protocol
