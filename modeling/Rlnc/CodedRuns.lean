import Rlnc.Runs

/-!
Receivers with a coded protocol. Whatever is known of the verified packets and
of the announcement of each block (`Terms`) holds of what a receiver stores in
every run, and so of what it forwards and decodes (`coded_keeps`). A handed packet
can make it panic only if the recovered bytes are no block at the announced
length, if block numbers run out, or if verification or combination itself panics.
-/
namespace Rlnc.CodedRuns
open Rlnc.Panics Rlnc.Combination Rlnc.Wire Rlnc.Packing Rlnc.Coding Rlnc.Draws Rlnc.Blocks Rlnc.Integrity
open Rlnc.Protocols Rlnc.Actor Rlnc.Runs
set_option linter.unusedSectionVars false

/-- What is known of the announced length of each block, of the chunks that
    verify for it, and of the block that is decoded. -/
structure Terms (F : Type) (N : Nat) where
  announced : Nat → Nat → Prop
  genuine : Nat → CodedChunk F N → Prop
  decoded : Nat → Block → Prop

section
variable {F : Type} [Field F] [DecidableEq F] {N : Nat} {Context Proof Error : Type} [FixedCodec F] [IntegrityProof Proof]
  [Random F] [PackableField F] [FixedCodec UInt64] [BytesCodec]

/-- Verification and combination return on what a receiver gives them. -/
structure Total (S : IntegrityScheme F N Context Proof Error) (derive : Nat → Context) (m : Nat) : Prop where
  verifies : ∀ n (packet : SignedPacket F N Proof), packet.chunk.w.v.length = m →
    ∃ r, S.verify (derive n) packet.chunk packet.proof = .ok r
  combines : ∀ n packets decoder proofs (alphas : List F), Stored S (derive n) m packets decoder proofs → packets ≠ [] →
    alphas.length = packets.length → ∃ proof, S.combine proofs alphas = .ok proof

/-- What is known of chunks is known of their mixtures, and of what they decode to. -/
structure Lawful (S : IntegrityScheme F N Context Proof Error) (derive : Nat → Context) (m : Nat) (T : Terms F N) :
    Prop where
  mixes : ∀ n packets decoder proofs (alphas : List F) c, Stored S (derive n) m packets decoder proofs →
    packets ≠ [] → (∀ p ∈ packets, T.genuine n p.chunk) → alphas.length = packets.length →
    decoder.reencode_with alphas = .ok c → T.genuine n c
  decodes : ∀ n packets decoder proofs byte_len chunks block, Stored S (derive n) m packets decoder proofs →
    packets ≠ [] → decoder.is_complete = true → (∀ p ∈ packets, T.genuine n p.chunk) → T.announced n byte_len →
    decoder.decode = .ok chunks → Block.from_chunks N chunks byte_len = .ok block → T.decoded n block

section
variable {σ K : Type} (P : Protocol σ) (S : IntegrityScheme F N Context Proof Error) (view : σ → CodedState F N Context Proof)
  (derive : Nat → Context) (m : Nat) (T : Terms F N)

/-- The long-lived part of the state. -/
def Fixed (s : σ) : Prop := (view s).m = m ∧ (view s).derive_ctx = derive

/-- A protocol between two blocks. -/
structure Idle (n : Nat) (s : σ) : Prop where
  fixed : Fixed view derive m s
  decoder : (view s).decoder = BlockDecoder.new
  proofs : (view s).proofs = []

/-- A protocol that takes the packets of block `n`. -/
structure Busy (n : Nat) (s : σ) : Prop where
  fixed : Fixed view derive m s
  ctx : (view s).ctx = some (derive n)
  announced : T.announced n (view s).byte_len
  stored : ∃ packets, Stored S (derive n) m packets (view s).decoder (view s).proofs ∧
    ∀ p ∈ packets, T.genuine n p.chunk

/-- What is known of a message of block `n` that arrives. -/
def Admissible : Item → Prop
  | (.Announce,n,data) => 8 ≤ data.length → T.announced n (of_be (data.take 8))
  | (.Data,n,data) => ∀ packet, SignedPacket.deserialize data m = .ok (.ok packet) → Verifies S (derive n) packet →
    T.genuine n packet.chunk

variable (Proof) in
/-- What is known of a packet that is sent. -/
def Sends (n : Nat) (msg : Bytes) : Prop :=
  ∃ packet : SignedPacket F N Proof, msg = message n packet.serialize ∧ packet.chunk.w.v.length = m ∧
    T.genuine n packet.chunk

/-- What is known of everything that a receiver does. -/
def Logged : Event σ K → Prop
  | .ingest s .Announce n data => Idle view derive m n s ∧ Admissible S derive m T (.Announce,n,data)
  | .ingest s .Data n data => Busy S view derive m T n s ∧ Admissible S derive m T (.Data,n,data)
  | .announced msg => ∃ n data, msg = message n data ∧ 8 ≤ data.length ∧ Admissible S derive m T (.Announce,n,data)
  | .forwarded n batch => ∀ entry ∈ batch, Sends Proof m T n entry.2
  | .decoded n block => T.decoded n block

/-- The packet of a message verifies and completes the decoder, but the chunks
    that all coded chunks encode are no block at the announced length. -/
def Unreadable (n : Nat) (s : σ) (data : Bytes) : Prop :=
  ∃ packet, SignedPacket.deserialize data m = .ok (.ok packet) ∧ Verifies S (derive n) packet ∧
    coefficient_span ((view s).decoder.coded_chunks ++ [packet.chunk]) = ⊤ ∧
    ∃ originals : List (Chunk F), originals.length = N ∧ (∀ v ∈ originals, v.v.length = m) ∧
      (∀ c ∈ (view s).decoder.coded_chunks ++ [packet.chunk], Encodes m originals c) ∧
      ¬Block.Readable originals (view s).byte_len

/-- The packet of a message completes the decoder, and there is no next block number
    or the chunks are no block at the announced length. -/
def Breaks (n : Nat) (s : σ) (data : Bytes) : Prop :=
  ∃ packet, SignedPacket.deserialize data m = .ok (.ok packet) ∧ Verifies S (derive n) packet ∧
    packet.chunk.coefficients ∉ coefficient_span (view s).decoder.coded_chunks ∧
    coefficient_span ((view s).decoder.coded_chunks ++ [packet.chunk]) = ⊤ ∧
    (2 ^ 64 ≤ n + 1 ∨ ∃ originals : List (Chunk F), originals.length = N ∧ (∀ v ∈ originals, v.v.length = m) ∧
      (∀ c ∈ (view s).decoder.coded_chunks ++ [packet.chunk], Encodes m originals c) ∧
      ¬Block.Readable originals (view s).byte_len)

/-- The handed messages that may panic. -/
def Fault : Event σ K → Prop
  | .ingest s .Data n data => ¬Total S derive m ∨ 2 ^ 64 ≤ n + 1 ∨ Unreadable S view derive m n s data
  | _ => False

end

/-! ### Receiving a packet -/

variable {S : IntegrityScheme F N Context Proof Error}

/-- What a received packet does to the state. -/
theorem receive_stored {state next : CodedState F N Context Proof} {ctx : Context} {packets : List (SignedPacket F N Proof)}
    {data : Bytes} {r : Except String Bool} (known : state.ctx = some ctx) (positive : 0 < state.m)
    (stored : Stored S ctx state.m packets state.decoder state.proofs) (ran : state.receive S data = .ok (next,r)) :
    next = { state with decoder := next.decoder, proofs := next.proofs } ∧
    (Stored S ctx state.m packets next.decoder next.proofs ∧ r ≠ .ok true ∨
      r = .ok true ∧ ∃ packet, SignedPacket.deserialize data state.m = .ok (.ok packet) ∧
        (Verifies S ctx packet ∧ packet.chunk.coefficients ∉ coefficient_span state.decoder.coded_chunks) ∧
        Stored S ctx state.m (packets ++ [packet]) next.decoder next.proofs) := by
  obtain ⟨read,runs,wide⟩ : ∃ r, (SignedPacket.deserialize data state.m : Rust (Except String (SignedPacket F N Proof))) =
      .ok r ∧ ∀ packet, r = .ok packet → packet.chunk.w.v.length = state.m := SignedPacket.deserialize_runs data positive
  simp only [CodedState.receive,known,runs,ok_bind] at ran
  cases read with
  | error e =>
    obtain ⟨rfl,rfl⟩ := ok_pair ran
    exact ⟨rfl,.inl ⟨stored,by simp⟩⟩
  | ok packet =>
    rw [bind_ok] at ran
    obtain ⟨⟨⟨decoder,proofs⟩,r'⟩,received,ran⟩ := ran
    obtain ⟨rfl,rfl⟩ := ok_pair ran
    refine ⟨by simp [known],?_⟩
    rcases coded_receive_stored stored (wide packet rfl) received with ⟨kept,refused⟩ | ⟨accepted,good,grown⟩
    · exact .inl ⟨kept,refused⟩
    · exact .inr ⟨accepted,packet,runs,good,grown⟩

/-- Receiving panics only where verification does. -/
theorem receive_total {state : CodedState F N Context Proof} {derive : Nat → Context} {n : Nat} {data : Bytes} {p : Panic}
    (total : Total S derive state.m) (known : state.ctx = some (derive n)) (positive : 0 < state.m)
    {packets : List (SignedPacket F N Proof)} (stored : Stored S (derive n) state.m packets state.decoder state.proofs) :
    state.receive S data ≠ .error p := by
  obtain ⟨read,runs,wide⟩ : ∃ r, (SignedPacket.deserialize data state.m : Rust (Except String (SignedPacket F N Proof))) =
      .ok r ∧ ∀ packet, r = .ok packet → packet.chunk.w.v.length = state.m := SignedPacket.deserialize_runs data positive
  intro panicked
  simp only [CodedState.receive,known,runs,ok_bind] at panicked
  cases read with
  | error e => cases panicked
  | ok packet =>
    obtain ⟨checked,verified⟩ := total.verifies n packet (wide packet rfl)
    rcases coded_receive_spec stored packet (wide packet rfl) verified with ⟨_,_,same⟩ | ⟨_,_,same⟩ | ⟨_,_,_,d',p',same,_⟩
    all_goals
      simp only [same,ok_bind] at panicked
      cases panicked

/-- Packets that a node forwards mix what it stores. -/
theorem recode_sends {state : CodedState F N Context Proof} {derive : Nat → Context} {m n : Nat} {T : Terms F N}
    (lawful : Lawful S derive m T) {packets : List (SignedPacket F N Proof)}
    (stored : Stored S (derive n) m packets state.decoder state.proofs) (some_packet : packets ≠ [])
    (genuine : ∀ p ∈ packets, T.genuine n p.chunk) {count : Nat} {rng rest : Rng} {sent : List Bytes}
    (ran : state.recode S count rng = .ok (sent,rest)) :
    ∀ bytes ∈ sent, Sends Proof m T n (message n bytes) := by
  rw [CodedState.recode,bind_ok] at ran
  obtain ⟨⟨forwarded,rest'⟩,collected,ran⟩ := ran
  obtain ⟨rfl,rfl⟩ := ok_pair ran
  intro bytes member
  obtain ⟨packet,listed,rfl⟩ := List.mem_map.mp member
  obtain ⟨before,mixed,_⟩ := coded_forward_each S collected packet listed
  have long : (random_coefficients (F := F) state.decoder.rank before).1.length = packets.length := by
    rw [random_coefficients_length,stored.rank]
  obtain ⟨chunk',mixed',wide,_⟩ := stored.reencode some_packet long
  obtain rfl : packet.chunk = chunk' := Except.ok.inj (mixed.symm.trans mixed')
  exact ⟨_,rfl,wide,lawful.mixes n packets _ _ _ packet.chunk stored some_packet genuine long mixed⟩

omit [FixedCodec F] [IntegrityProof Proof] [PackableField F] [FixedCodec UInt64] [BytesCodec] in
/-- Forwarding returns where combination does, and mixes what is stored. -/
theorem forward_total {decoder : BlockDecoder F N} {proofs : List Proof} {derive : Nat → Context} {m n : Nat}
    (total : Total S derive m) {packets : List (SignedPacket F N Proof)}
    (stored : Stored S (derive n) m packets decoder proofs) (some_packet : packets ≠ []) (count : Nat) (rng : Rng) :
    ∃ sent rest, coded_forward S decoder proofs count rng = .ok (sent,rest) ∧ sent.length = count ∧
      ∀ p ∈ sent, p.chunk.w.v.length = m ∧
        p.chunk.coefficients ∈ Submodule.span F {x | x ∈ packets.map (fun p => p.chunk.coefficients)} := by
  refine collect_keeps (forward_one S decoder proofs) _ (fun before => ?_) count rng
  have long : (random_coefficients (F := F) decoder.rank before).1.length = packets.length := by
    rw [random_coefficients_length,stored.rank]
  obtain ⟨chunk,mixed,width,_,coefficients⟩ := stored.reencode some_packet long
  obtain ⟨proof,combined⟩ := total.combines n packets _ _ _ stored some_packet long
  refine ⟨⟨chunk,proof⟩,_,by rw [forward_one]; simp only [mixed,ok_bind,combined,pure_eq]; rfl,width,?_⟩
  rw [coefficients]
  exact comb_mem_span _ _

/-- Forwarding panics only where combination does. -/
theorem recode_total {state : CodedState F N Context Proof} {derive : Nat → Context} {m n : Nat}
    (total : Total S derive m) {packets : List (SignedPacket F N Proof)}
    (stored : Stored S (derive n) m packets state.decoder state.proofs) (some_packet : packets ≠ []) (count : Nat)
    (rng : Rng) (p : Panic) : state.recode S count rng ≠ .error p := by
  obtain ⟨sent,rest,collected,_⟩ := forward_total total stored some_packet count rng
  simp only [CodedState.recode,collected,ok_bind,pure_eq]
  exact fun same => by cases same

/-! ### What a receiver keeps -/

variable {σ K : Type} [DecidableEq K] [SliceRandom] {P : Protocol σ} {view : σ → CodedState F N Context Proof}
  {derive : Nat → Context} {m : Nat} {T : Terms F N}

theorem announce_kept (coded : Coded P S view) {n : Nat} {s : σ} {data : Bytes} (idle : Idle view derive m n s)
    (admissible : Admissible S derive m T (.Announce,n,data)) {Accounted : Event σ K → Prop} :
    AnnounceKept P (Idle view derive m) (Busy S view derive m T) (Logged (K := K) S view derive m T) Accounted n s data := by
  have ran := coded.announce s n data
  refine ⟨⟨idle,admissible⟩,?_,?_,?_⟩
  · intro p panicked
    rw [panicked] at ran
    cases ran
  · intro t accepted
    rw [accepted] at ran
    have same := Except.ok.inj ran
    unfold CodedState.announce at same
    by_cases short : data.length < 8
    · rw [if_pos short] at same
      cases (Prod.mk.inj same).2
    · rw [if_neg short] at same
      obtain ⟨next,_⟩ := Prod.mk.inj same
      refine ⟨⟨?_,?_,?_,[],?_,by simp⟩,n,data,rfl,by omega,admissible⟩
      · rw [Fixed,next]; exact idle.fixed
      · rw [next,← idle.fixed.2]
      · rw [next]; exact admissible (by omega)
      · rw [next]
        simp only [idle.decoder,idle.proofs]
        exact Stored.new
  · intro t r answered refused
    rw [answered] at ran
    have same := Except.ok.inj ran
    unfold CodedState.announce at same
    split at same
    · obtain ⟨next,_⟩ := Prod.mk.inj same
      exact ⟨by rw [Fixed,next]; exact idle.fixed,by rw [next]; exact idle.decoder,by rw [next]; exact idle.proofs⟩
    · exact absurd (Prod.mk.inj same).2 refused

/-- What follows when a packet was stored: the receiver forwards mixtures, and
    decodes when it is complete. -/
theorem useful_kept (coded : Coded P S view) (lawful : Lawful S derive m T) {n : Nat} {t : σ} {fault : Prop}
    (busy : Busy S view derive m T n t) (some_packet : (view t).decoder.coded_chunks ≠ [])
    (partial_faults : ¬Total S derive m → fault)
    (breaks : coefficient_span (view t).decoder.coded_chunks = ⊤ → (2 ^ 64 ≤ n + 1 ∨ ∃ originals : List (Chunk F),
      originals.length = N ∧ (∀ v ∈ originals, v.v.length = m) ∧
      (∀ c ∈ (view t).decoder.coded_chunks, Encodes m originals c) ∧ ¬Block.Readable originals (view t).byte_len) → fault) :
    UsefulKept P (Idle view derive m) (Busy S view derive m T) (Logged (K := K) S view derive m T) fault n t := by
  obtain ⟨⟨wide,derived⟩,known,announced,packets,stored,genuine⟩ := id busy
  have nonempty : packets ≠ [] := by
    rintro rfl
    exact some_packet (by rw [stored.chunks]; rfl)
  have widths : ∀ c ∈ (view t).decoder.coded_chunks, c.w.v.length = m := by
    intro c member
    rw [stored.chunks] at member
    obtain ⟨p,listed,rfl⟩ := List.mem_map.mp member
    exact stored.width p listed
  have decoded : ∀ block u, P.decode t = .ok (block,u) → u = t ∧ (view t).decode = .ok block := by
    intro block u ran
    rw [coded.decode] at ran
    cases read : (view t).decode with
    | error p => rw [read] at ran; cases ran
    | ok block' =>
      rw [read] at ran
      obtain ⟨rfl,rfl⟩ := ok_pair ran
      exact ⟨rfl,rfl⟩
  refine ⟨?_,?_,fun _ => busy,?_,?_,?_⟩
  · intro count rng p panicked
    rw [coded.recode] at panicked
    exact partial_faults fun total => recode_total total stored nonempty count rng p panicked
  · intro count rng sent rest targets ran entry member
    rw [coded.recode] at ran
    obtain ⟨bytes,listed,same⟩ := List.mem_map.mp (List.of_mem_zip member).2
    rw [← same]
    exact recode_sends lawful stored nonempty genuine ran bytes listed
  · intro p complete panicked
    rw [coded.is_complete] at complete
    obtain ⟨chunks,ran,count,sizes,encoded⟩ := BlockDecoder.decode_encodes stored.sound complete widths
    refine breaks ((BlockDecoder.complete_iff_spans stored.sound).mp complete) (.inr ⟨chunks,count,sizes,encoded,?_⟩)
    rw [← Block.from_chunks_runs_iff count]
    rintro ⟨block,read⟩
    rw [coded.decode] at panicked
    simp only [CodedState.decode,ran,ok_bind,read] at panicked
    cases panicked
  · intro block u complete ran
    rw [coded.is_complete] at complete
    obtain ⟨chunks,read,_⟩ := BlockDecoder.decode_encodes stored.sound complete widths
    have whole := (decoded block u ran).2
    simp only [CodedState.decode,read,ok_bind] at whole
    exact lawful.decodes n packets _ _ _ chunks block stored nonempty complete genuine announced read whole
  · intro block u complete ran
    obtain ⟨rfl,_⟩ := decoded block u ran
    split
    · obtain ⟨derives,width⟩ := coded.reset_fixed u
      obtain ⟨decoder,proofs,_⟩ := coded.reset_block u
      exact ⟨⟨width.trans wide,derives.trans derived⟩,decoder.trans (BlockDecoder.sound_reset stored.sound),proofs⟩
    · rw [coded.is_complete] at complete
      exact breaks ((BlockDecoder.complete_iff_spans stored.sound).mp complete) (.inl (by omega))

/-- A data packet panics only where the scheme does, or by breaking the receiver. -/
theorem data_kept (coded : Coded P S view) (lawful : Lawful S derive m T) (positive : 0 < m) {n : Nat} {s : σ}
    {data : Bytes} (busy : Busy S view derive m T n s) (admissible : Admissible S derive m T (.Data,n,data))
    {Accounted : Event σ K → Prop} (partial_faults : ¬Total S derive m → Accounted (.ingest s .Data n data))
    (breaks : Breaks S view derive m n s data → Accounted (.ingest s .Data n data)) :
    DataKept P (Idle view derive m) (Busy S view derive m T) (Logged (K := K) S view derive m T) Accounted n s data := by
  have ran := coded.data s n data
  obtain ⟨⟨wide,derived⟩,known,announced,packets,stored,genuine⟩ := id busy
  rw [← wide] at stored
  have positive' : 0 < (view s).m := by omega
  refine ⟨⟨busy,admissible⟩,?_,?_,?_⟩
  · intro p panicked
    rw [panicked] at ran
    exact partial_faults fun total => receive_total (by rw [wide]; exact total) known positive' stored ran.symm
  · intro t accepted
    rw [accepted] at ran
    obtain ⟨next,⟨_,refused⟩ | ⟨_,packet,read,⟨good,fresh⟩,grown⟩⟩ := receive_stored known positive' stored ran.symm
    · exact absurd rfl refused
    · rw [wide] at grown read
      have chunks : (view t).decoder.coded_chunks = (view s).decoder.coded_chunks ++ [packet.chunk] := by
        rw [grown.chunks,stored.chunks,List.map_append,List.map_singleton]
      have length : (view t).byte_len = (view s).byte_len := by rw [next]
      have all : ∀ p ∈ packets ++ [packet], T.genuine n p.chunk := by
        intro p member
        rcases List.mem_append.mp member with old | new
        · exact genuine p old
        · rw [List.mem_singleton.mp new]
          exact admissible packet read good
      have busy' : Busy S view derive m T n t := by
        refine ⟨?_,?_,by rw [length]; exact announced,_,grown,all⟩
        · rw [Fixed,next]; exact ⟨wide,derived⟩
        · rw [next]; exact known
      refine useful_kept coded lawful busy' (by simp [chunks]) partial_faults ?_
      rw [chunks,length]
      exact fun spans broken => breaks ⟨packet,read,good,fresh,spans,broken⟩
  · intro t r answered refused
    rw [answered] at ran
    obtain ⟨next,⟨kept,_⟩ | ⟨accepted,_⟩⟩ := receive_stored known positive' stored ran.symm
    · rw [wide] at kept
      refine ⟨?_,?_,?_,packets,kept,genuine⟩
      · rw [Fixed,next]; exact ⟨wide,derived⟩
      · rw [next]; exact known
      · rw [next]; exact announced
    · exact absurd accepted refused

/-- A coded protocol keeps what is known of its blocks. -/
theorem coded_keeps (coded : Coded P S view) (lawful : Lawful S derive m T) (positive : 0 < m) :
    Keeps P (Idle view derive m) (Busy S view derive m T) (Admissible S derive m T)
      (Logged (K := K) S view derive m T) (Fault S view derive m) :=
  ⟨fun _ _ _ idle admissible => announce_kept coded idle admissible,
    fun _ _ _ busy admissible => data_kept coded lawful positive busy admissible .inl fun
      | ⟨_,_,_,_,_,.inl last⟩ => .inr (.inl last)
      | ⟨packet,read,good,_,spans,.inr unreadable⟩ => .inr (.inr ⟨packet,read,good,spans,unreadable⟩)⟩

/-- All that is known stays known. -/
structure Terms.Grows (T T' : Terms F N) : Prop where
  announced : ∀ n byte_len, T.announced n byte_len → T'.announced n byte_len
  genuine : ∀ n c, T.genuine n c → T'.genuine n c
  decoded : ∀ n block, T.decoded n block → T'.decoded n block

theorem Busy.grows {T' : Terms F N} (grows : T.Grows T') {n : Nat} {s : σ} (busy : Busy S view derive m T n s) :
    Busy S view derive m T' n s := by
  obtain ⟨packets,stored,genuine⟩ := busy.stored
  exact ⟨busy.fixed,busy.ctx,grows.announced _ _ busy.announced,packets,stored,
    fun p member => grows.genuine _ _ (genuine p member)⟩

theorem admissible_grows {T' : Terms F N} (grows : T.Grows T') :
    ∀ item, Admissible S derive m T item → Admissible S derive m T' item := by
  rintro ⟨channel,n,data⟩ admissible
  cases channel with
  | Announce =>
    intro long
    exact grows.announced _ _ (admissible long)
  | Data =>
    intro packet read good
    exact grows.genuine _ _ (admissible packet read good)

theorem logged_grows {T' : Terms F N} (grows : T.Grows T') (event : Event σ K) (logged : Logged S view derive m T event) :
    Logged S view derive m T' event := by
  match event,logged with
  | .ingest s .Announce n data,⟨idle,admissible⟩ => exact ⟨idle,admissible_grows grows _ admissible⟩
  | .ingest s .Data n data,⟨busy,admissible⟩ => exact ⟨busy.grows grows,admissible_grows grows _ admissible⟩
  | .announced msg,⟨n,data,same,long,admissible⟩ => exact ⟨n,data,same,long,admissible_grows grows _ admissible⟩
  | .forwarded n batch,sends =>
    intro entry member
    obtain ⟨packet,same,wide,genuine⟩ := sends entry member
    exact ⟨packet,same,wide,grows.genuine _ _ genuine⟩
  | .decoded n block,decoded => exact grows.decoded n block decoded

/-- A receiver of a coded protocol in a run. -/
def CodedRun (S : IntegrityScheme F N Context Proof Error) (view : σ → CodedState F N Context Proof)
    (derive : Nat → Context) (m : Nat) (T : Terms F N) (node : Receiver σ K) : Prop :=
  Run (Idle view derive m) (Busy S view derive m T) (Admissible S derive m T) (Logged S view derive m T)
    (Fault S view derive m) node

theorem CodedRun.grows {T' : Terms F N} (grows : T.Grows T') {node : Receiver σ K} (run : CodedRun S view derive m T node) :
    CodedRun S view derive m T' node :=
  Run.mono (fun _ _ idle => idle) (fun _ _ busy => busy.grows grows) (admissible_grows grows) (logged_grows grows)
    (fun _ fault => fault) run

theorem CodedRun.logged {node : Receiver σ K} (run : CodedRun S view derive m T node) :
    ∀ event ∈ node.log, Logged S view derive m T event := by
  rcases run with ⟨_,steady⟩ | ⟨_,stopped⟩
  · exact steady.logged
  · exact stopped.logged

end

end Rlnc.CodedRuns
