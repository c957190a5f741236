import Rlnc.BfkwStrategy
import Rlnc.Decodability
import Rlnc.Packets
import Rlnc.PedersenStrategy

/-!
Which blocks the two coded protocols can deliver to every receiver of a live network:
those that fit, with enough packets for their chunks (`Enough`), when the receivers can read
what the proposer signs. A Pedersen proof is read with 1024 commitments at most
(`pedersen_decodable_iff`), and a BFKW signature unless it is the identity
(`bfkw_decodable_iff`).
-/
namespace Rlnc.Delivery
open Rlnc.Panics Rlnc.Combination Rlnc.Linalg Rlnc.Wire Rlnc.Packing Rlnc.Coding Rlnc.Draws Rlnc.Blocks Rlnc.Groups Rlnc.Integrity
open Rlnc.Scalars Rlnc.Protocols Rlnc.Packets Rlnc.Strategies Rlnc.Actor Rlnc.Runs Rlnc.Network Rlnc.Schedules Rlnc.Decodability
set_option linter.unusedSectionVars false

/-! ### Networks -/

section
variable {σ Key K : Type}

/-- A block that the proposer of the network can draw as its first. -/
def Generated (config : Config σ K) (block : Block) : Prop := ∃ rng, (generate_random_block config.block_size 0 rng).1 = block

/-- Nodes as they start, every one a peer of every other: a proposer with its key and at least one receiver. -/
structure Deployed (new : Option Key → σ) (signer : Key) (config : Config σ K) (degree : Nat) : Prop where
  fresh : ∃ signers : K → Option Key, signers config.source = some signer ∧ ∀ k, config.protocol k = new (signers k)
  meshed : Meshed config degree
  some_receiver : 1 ≤ (config.peers config.source).length

end

/-! ### What a proposer can draw -/

/-- Any four scalars can be avoided. -/
theorem roomy_scalar : Relaying.Roomy Scalar := by
  intro bad few
  by_contra none_left
  push Not at none_left
  have all : (Finset.univ : Finset Scalar) ⊆ bad.toFinset := fun x _ => List.mem_toFinset.mpr (none_left x)
  have count := (Finset.card_le_card all).trans bad.toFinset_card_le
  rw [Finset.card_univ,ZMod.card] at count
  have large : 4 < order := by decide
  omega

section
variable {F : Type} [Field F] [DecidableEq F] [PackableField F] [LawfulPackable F] [Random F] [LawfulRandom F] {N m : Nat}
  [FixedCodec UInt64] [BytesCodec]

/-- A chunk can be encoded with any coefficients without zeros. -/
theorem encode_one_given {originals : List (Chunk F)} (some_chunk : 0 < N) (positive : 0 < m)
    (count : originals.length = N) (sizes : ∀ v ∈ originals, v.v.length = m) (x : Fin N → F) (nonzero : ∀ i, x i ≠ 0) :
    ∃ c : CodedChunk F N, CanGive (Block.encode_one N (originals.map Chunk.v)) c ∧ Encodes m originals c ∧
      c.coefficients = x := by
  have long : (List.ofFn x).length = N := List.length_ofFn
  obtain ⟨draws,gives⟩ := random_coefficients_every (List.ofFn x) (by simpa [List.forall_mem_ofFn_iff] using nonzero)
  rw [long] at gives
  have nonempty : originals.map Chunk.v ≠ [] := List.ne_nil_of_length_pos (by rw [List.length_map,count]; exact some_chunk)
  obtain ⟨data,ran,width,value⟩ := linear_combination_spec m (originals.map Chunk.v) (List.ofFn x) nonempty
    (by rw [List.length_map,count,long]) (by
      intro v listed
      obtain ⟨c,member,rfl⟩ := List.mem_map.mp listed
      exact sizes c member)
  have some_data : data ≠ [] := List.ne_nil_of_length_pos (by omega)
  refine ⟨⟨⟨data,some_data⟩,List.ofFn x,long⟩,⟨draws,fun rest => ?_⟩,⟨width,?_⟩,coords_ofFn N x⟩
  · simp only [Block.encode_one,gives rest,ran,ok_bind,Chunk.new_of some_data,CodedChunk.new_of long,pure_eq]
  · rw [value,List.map_map]; rfl

/-- A block that fits can be encoded with any coefficients without zeros. -/
theorem encode_chunks_given {block : Block} (fits : Block.Fits F block N m) {chunks : List (Chunk F)} {byte_len : Nat}
    (split : block.as_chunks N m = .ok (chunks,byte_len)) (xs : List (Fin N → F)) (nonzero : ∀ x ∈ xs, ∀ i, x i ≠ 0) :
    ∃ (draws : List Nat) (coded : List (CodedChunk F N)),
      (∀ rest, block.encode_chunks N m xs.length (draws ++ₛ rest) = .ok ((coded,byte_len),rest)) ∧
      List.Forall₂ (fun x c => Encodes m chunks c ∧ c.coefficients = x) xs coded := by
  obtain ⟨_,_,parts⟩ := Block.as_chunks_ok split
  have each : ∃ coded : List (CodedChunk F N), (∀ c ∈ coded, CanGive (Block.encode_one N (chunks.map Chunk.v)) c) ∧
      List.Forall₂ (fun x c => Encodes m chunks c ∧ c.coefficients = x) xs coded := by
    induction xs with
    | nil => exact ⟨[],by simp,.nil⟩
    | cons x xs ih =>
      obtain ⟨coded,given,all⟩ := ih fun y member => nonzero y (List.mem_cons_of_mem x member)
      obtain ⟨c,gives,good⟩ := encode_one_given (Nat.pos_of_mul_pos_right fits.slots) (Nat.pos_of_mul_pos_left fits.slots)
        parts.count parts.sizes x (nonzero x (by simp))
      exact ⟨c :: coded,by simpa using ⟨gives,given⟩,.cons good all⟩
  obtain ⟨coded,given,all⟩ := each
  obtain ⟨draws,gives⟩ := CanGive.collect coded given
  refine ⟨draws,coded,fun rest => ?_,all⟩
  have ran := gives rest
  rw [← all.length_eq] at ran
  simp only [Block.encode_chunks,split,ok_bind,ran,pure_eq]

end

/-! ### Pedersen -/

section
open Rlnc.Pedersen Rlnc.PedersenStrategy Rlnc.PedersenProtocol

variable {G S PublicKey Signature K : Type} [AddCommGroup G] [DecidableEq G] [Module Scalar G] [Space Scalar G] [LawfulSpace Scalar G]
  [HashToGroup G] [FixedCodec G] [WrittenElement G] [Verifier PublicKey Signature] [Signer S PublicKey Signature]
  [LawfulSigner S PublicKey Signature] [FixedCodec Signature] [WrittenCodec Signature] [FixedCodec Scalar] [LawfulScalarCodec]
  [Random Scalar] [FixedCodec UInt32] [WrittenCodec UInt32] [FixedCodec UInt64] [BytesCodec] [SliceRandom] [DecidableEq K]
  {N m : Nat}

/-- Genuine packets with the proof of the block are read back up to 1024 chunks. -/
theorem pedersen_carried (few : N ≤ 1024) {signer : PedersenSigner S}
    {key : CommitmentKey G} {chunks : List (Chunk Scalar)} (width : key.generators.length = m) (count : chunks.length = N)
    (sizes : ∀ v ∈ chunks, v.v.length = m) :
    Carried (PedersenScheme Scalar G PublicKey Signature N) (signer.context key) m chunks (OfBlock signer key m chunks)
      (LinearMap.id : (Fin N → Scalar) →ₗ[Scalar] Fin N → Scalar) where
  toHereditary := of_block_hereditary width count sizes
  readable p genuine _ := by
    have commitments : p.proof.commitments.length ≤ 1024 := by
      rw [genuine.1]
      simpa [block_proof,Pedersen.commitments,count] using few
    have back := p.deserialize_serialize [] (pedersen_proof_back p.proof commitments)
    rwa [List.append_nil,genuine.2.width] at back

omit [LawfulSpace Scalar G] [WrittenElement G] [WrittenCodec Signature] [WrittenCodec UInt32] [SliceRandom] in
/-- The proposer fills its decoder with the chunks of the block. -/
theorem pedersen_decoder_runs {chunks : List (Chunk Scalar)} (count : chunks.length = N)
    (sizes : ∀ v ∈ chunks, v.v.length = m) (proof : PedersenProof G Signature) :
    ∃ state : BlockDecoder Scalar N × List (PedersenProof G Signature),
      PedersenProtocol.init_decoder chunks proof = .ok state := by
  unfold PedersenProtocol.init_decoder
  refine (fold_keeps _ (fun passed state => Filled m chunks passed.length state.1) chunks.zipIdx (BlockDecoder.new,[])
    Filled.start ?_).imp fun state kept => kept.1
  rintro before ⟨orig,i⟩ after ⟨decoder,proofs⟩ split filled
  obtain ⟨inside,rfl,rfl⟩ := enumerated split
  have small : before.length < (List.replicate N (0 : Scalar)).length := by simpa [count] using inside
  obtain ⟨coded,made,decoder',grew,ran,filled'⟩ := filled.add count sizes inside
  exact ⟨(decoder',proofs ++ [proof]),by simp only [set_at_of small,ok_bind,made,ran,pure_eq],by simpa using filled'⟩

/-- Every packet of the proposer carries the proof of the block, which has a commitment to each of `N` chunks. -/
theorem pedersen_proposal {s t : PedersenProtocol Scalar G S PublicKey Signature N} {signer : PedersenSigner S}
    (signs : s.signer = some signer) (width : s.ctx.key.generators.length = s.m) {block : Block} {degree : Nat}
    {rng rest : Rng} {proposal : Proposal}
    (ran : (protocol Scalar G S PublicKey Signature N).propose s block degree rng = .ok ((t,proposal),rest)) :
    (t.signer = s.signer ∧ t.ctx = s.ctx ∧ t.m = s.m) ∧
    ∃ (chunks : List (Chunk Scalar)) (byte_len : Nat), block.as_chunks N s.m = .ok (chunks,byte_len) ∧
      ∀ bytes ∈ proposal.packets, ∃ p : PedersenPacket G Signature N, bytes = p.serialize ∧
        OfBlock signer s.ctx.key s.m chunks p ∧ p.proof.commitments.length = N := by
  simp only [protocol,PedersenProtocol.propose,bind_ok] at ran
  obtain ⟨⟨⟨coded,byte_len⟩,rng'⟩,encoded,⟨chunks,length⟩,split,signer',known,proof,signed,⟨decoder,proofs⟩,_,ran⟩ := ran
  simp only [pure_eq,Except.ok.injEq,Prod.mk.injEq] at ran
  obtain ⟨⟨rfl,rfl⟩,rfl⟩ := ran
  simp only [signs,expect,Except.ok.injEq] at known
  obtain rfl := known
  obtain ⟨_,_,parts⟩ := Block.as_chunks_ok split
  obtain ⟨originals,split',_,each⟩ := Block.encode_chunks_ok encoded
  obtain ⟨rfl,_⟩ := ok_pair (split.symm.trans split')
  rw [sign_block_runs signer s.ctx.key fun v member => (parts.sizes v member).trans width.symm] at signed
  obtain rfl := Except.ok.inj signed
  refine ⟨⟨rfl,rfl,rfl⟩,chunks,length,split,fun bytes member => ?_⟩
  obtain ⟨chunk,listed,rfl⟩ := List.mem_map.mp member
  exact ⟨_,rfl,⟨rfl,each chunk listed⟩,by simp [Pedersen.commitments,parts.count]⟩

/-- A proof with more commitments than are read, as long as the count field holds their number, is refused. -/
theorem pedersen_refused {proof q : PedersenProof G Signature} {more rest : Bytes} (counted : proof.commitments.length < 2 ^ 32)
    (ran : (IntegrityProof.deserialize_proof : Reader (PedersenProof G Signature)).run
      (IntegrityProof.serialize_proof proof ++ more) = .ok (q,rest)) : proof.commitments.length ≤ 1024 := by
  by_contra many
  have count : (UInt32.ofNat proof.commitments.length).toNat = proof.commitments.length := by
    rw [UInt32.toNat_ofNat']
    omega
  have read : ∀ rest, (map_err (fun e => s!"commitment count: {e}") (FixedCodec.read_cfg : Reader UInt32)).run
      (FixedCodec.write (UInt32.ofNat proof.commitments.length) ++ rest) = .ok (UInt32.ofNat proof.commitments.length,rest) :=
    fun rest => (map_err_ok _ _ _ _).mpr (WrittenCodec.read_back _ rest)
  simp only [IntegrityProof.deserialize_proof,IntegrityProof.serialize_proof,List.append_assoc] at ran
  rw [run_bind_of (read _),if_pos (by omega)] at ran
  cases ran

/-- The proposer can send its packets with any coefficients without zeros. -/
theorem pedersen_offers [LawfulRandom Scalar] {s : PedersenProtocol Scalar G S PublicKey Signature N} {signer : PedersenSigner S}
    (signs : s.signer = some signer) (width : s.ctx.key.generators.length = s.m) {block : Block}
    (fits : Block.Fits Scalar block N s.m) {chunks : List (Chunk Scalar)} {byte_len : Nat}
    (split : block.as_chunks N s.m = .ok (chunks,byte_len)) (degree : Nat) :
    Offers (protocol Scalar G S PublicKey Signature N) (OfBlock (N := N) signer s.ctx.key s.m chunks) s block degree := by
  intro xs long nonzero
  subst long
  obtain ⟨_,_,parts⟩ := Block.as_chunks_ok split
  obtain ⟨draws,coded,encoded,all⟩ := encode_chunks_given fits split xs nonzero
  obtain ⟨⟨decoder,proofs⟩,filled⟩ := pedersen_decoder_runs parts.count parts.sizes (block_proof signer s.ctx.key chunks)
  have signed : signer.sign_block s.ctx.key (chunks.map Chunk.v) = .ok (block_proof signer s.ctx.key chunks) :=
    sign_block_runs signer s.ctx.key fun v member => (parts.sizes v member).trans width.symm
  refine ⟨draws,fun rest => ⟨{ s with decoder := decoder, proofs := proofs, byte_len := byte_len },to_be 8 byte_len,
    coded.map fun chunk => ⟨chunk,block_proof signer s.ctx.key chunks⟩,?_,by rw [to_be_length],?_⟩⟩
  · simp only [protocol,PedersenProtocol.propose,encoded,ok_bind,split,signs,expect,signed,filled,pure_eq,List.map_map]
    rfl
  · rw [List.forall₂_map_right_iff]
    exact all.imp fun x c good => ⟨⟨rfl,good.1⟩,good.2⟩

variable {config : Config (PedersenProtocol Scalar G S PublicKey Signature N) K} {block : Block} {degree : Nat}
  {signer : PedersenSigner S}

theorem pedersen_ready (deployed : Deployed (PedersenProtocol.new m (Signer.public_key signer.signer)) signer config degree) :
    Ready view (fun _ => signer.context (CommitmentKey.canonical m)) m config := by
  obtain ⟨signers,_,fresh⟩ := deployed.fresh
  intro k
  rw [fresh k]
  exact ⟨⟨rfl,rfl⟩,rfl,rfl⟩

/-- What the proposer of a deployed network holds. -/
theorem pedersen_source (deployed : Deployed (PedersenProtocol.new m (Signer.public_key signer.signer)) signer config degree) :
    (config.protocol config.source).signer = some signer ∧
    (config.protocol config.source).ctx.key = CommitmentKey.canonical m ∧ (config.protocol config.source).m = m ∧
    (config.protocol config.source).ctx.key.generators.length = (config.protocol config.source).m := by
  obtain ⟨signers,signs,fresh⟩ := deployed.fresh
  rw [fresh]
  exact ⟨signs,rfl,rfl,by simp [PedersenProtocol.new,CommitmentKey.canonical,CommitmentKey.deterministic]⟩

/-- A block that is decoded fits, its proof is short enough to be read, and there are enough packets. -/
theorem pedersen_needs [LawfulSliceRandom] (some_chunk : 0 < N) (countable : N < 2 ^ 32)
    (deployed : Deployed (PedersenProtocol.new m (Signer.public_key signer.signer)) signer config degree)
    (decodable : Decodable (protocol Scalar G S PublicKey Signature N) config block) :
    Block.Fits Scalar block N m ∧ N ≤ 1024 ∧ Enough N (config.peers config.source).length degree := by
  obtain ⟨signs,_,same,width⟩ := pedersen_source deployed
  obtain ⟨rng,t,proposal,rest,ran,⟨bytes,member,q,read⟩,enough⟩ :=
    decodable_needs coded proposes some_chunk (pedersen_ready deployed) deployed.meshed deployed.some_receiver decodable
  obtain ⟨_,chunks,byte_len,split,each⟩ := pedersen_proposal signs width ran
  obtain ⟨p,rfl,genuine,many⟩ := each bytes member
  have wide := genuine.2.width
  rw [same] at split wide
  rw [← wide] at read
  obtain ⟨_,left,proof_read⟩ := p.deserialize_written [] (by rw [List.append_nil]; exact read)
  have short := pedersen_refused (by rw [many]; exact countable) proof_read
  rw [many] at short
  exact ⟨(Block.as_chunks_ok split).1,short,enough⟩

/-- A block that fits is decoded in some schedule, with a short proof and enough packets. -/
theorem pedersen_delivers [LawfulRandom Scalar] [LawfulSliceRandom] (some_chunk : 0 < N)
    (deployed : Deployed (PedersenProtocol.new m (Signer.public_key signer.signer)) signer config degree)
    (generated : Generated config block) (fits : Block.Fits Scalar block N m) (few : N ≤ 1024)
    (enough : Enough N (config.peers config.source).length degree) :
    Decodable (protocol Scalar G S PublicKey Signature N) config block := by
  obtain ⟨signs,context,same,width⟩ := pedersen_source deployed
  obtain ⟨chunks,split,parts⟩ := Block.as_chunks_spec (F := Scalar) block fits
  have key : (CommitmentKey.canonical m : CommitmentKey G).generators.length = m := by
    rw [← context,width,same]
  have carried : Carried (PedersenScheme Scalar G PublicKey Signature N) (signer.context (CommitmentKey.canonical m)) m chunks
      (OfBlock signer (CommitmentKey.canonical m) m chunks) (LinearMap.id : (Fin N → Scalar) →ₗ[Scalar] Fin N → Scalar) :=
    pedersen_carried few key parts.count parts.sizes
  have some_image : (LinearMap.id : (Fin N → Scalar) →ₗ[Scalar] Fin N → Scalar) ≠ 0 := by
    intro zero
    have vanishes := congrFun (LinearMap.congr_fun zero 1) ⟨0,some_chunk⟩
    exact one_ne_zero vanishes
  have offers := pedersen_offers signs width (by rw [same]; exact fits) (by rw [same]; exact split) degree
  rw [context,same] at offers
  exact decodable_of_enough roomy_scalar some_image some_chunk coded carried (pedersen_ready deployed) deployed.meshed offers
    generated enough

variable (config block) in
/-- With Pedersen commitments a block is decoded by every receiver, in some schedule, exactly when
    it fits, its proof is short enough to be read, and there are enough packets. -/
theorem pedersen_decodable_iff [LawfulRandom Scalar] [LawfulSliceRandom] (some_chunk : 0 < N) (countable : N < 2 ^ 32)
    {signer : PedersenSigner S} {signers : K → Option (PedersenSigner S)} (signs : signers config.source = some signer)
    (fresh : ∀ k, config.protocol k = PedersenProtocol.new m (Signer.public_key signer.signer) (signers k))
    (meshed : Meshed config degree) (some_receiver : 1 ≤ (config.peers config.source).length)
    (generated : ∃ rng, (generate_random_block config.block_size 0 rng).1 = block) :
    Decodable (protocol Scalar G S PublicKey Signature N) config block ↔
      Block.Fits Scalar block N m ∧ N ≤ 1024 ∧ Enough N (config.peers config.source).length degree := by
  have deployed : Deployed (PedersenProtocol.new m (Signer.public_key signer.signer)) signer config degree :=
    ⟨⟨signers,signs,fresh⟩,meshed,some_receiver⟩
  constructor
  · exact pedersen_needs some_chunk countable deployed
  · rintro ⟨fits,few,enough⟩
    exact pedersen_delivers some_chunk deployed generated fits few enough

end

/-! ### BFKW -/

section
open Rlnc.Bfkw Rlnc.BfkwProtocol
open Rlnc.Agreement (number_context)

variable {G1 G2 K : Type} [AddCommGroup G1] [Module Scalar G1] [AddCommGroup G2] [Module Scalar G2] [Space Scalar G2]
  [LawfulSpace Scalar G2] [HashToGroup G2] [PairingGroup G1 G2] [LawfulPairing Scalar G1 G2] [FixedCodec G2]
  [LawfulElement G2] [FixedCodec Scalar] [LawfulScalarCodec] [Random Scalar] [FixedCodec UInt64] [BytesCodec] [SliceRandom]
  [DecidableEq K] {N m : Nat} {sk : Scalar} {ctx : BfkwContext G1 G2}
  {chunks : List (Chunk Scalar)}

/-- The signature of a packet of the block, from its coefficients. -/
def sealing (sk : Scalar) (ctx : BfkwContext G1 G2) (N m : Nat) (chunks : List (Chunk Scalar)) :
    (Fin N → Scalar) →ₗ[Scalar] G2 :=
  sk • (message_point m N ctx).comp ((weigh N (chunks.map fun c => coords m c.v)).prod LinearMap.id)

/-- A packet that encodes the block, with the signature that belongs to its coefficients. -/
def Sealed (sk : Scalar) (ctx : BfkwContext G1 G2) (m : Nat) (chunks : List (Chunk Scalar))
    (p : SignedPacket Scalar N (BfkwProof G2)) : Prop :=
  Encodes m chunks p.chunk ∧ p.proof.sigma = sealing sk ctx N m chunks p.chunk.coefficients

theorem sealing_encodes (count : chunks.length = N) {chunk : CodedChunk Scalar N} (encodes : Encodes m chunks chunk) :
    sealing sk ctx N m chunks chunk.coefficients =
      sk • message_point m N ctx (coords m chunk.w.v,chunk.coefficients) := by
  rw [encodes.combined,comb_eq_weigh chunk.b (n := N) (by rw [List.length_map,count])]
  rfl

/-- Some signature is not the identity when that of some chunk is not. -/
theorem sealing_nonzero_iff (count : chunks.length = N) :
    sealing sk ctx N m chunks ≠ 0 ↔ ∃ (i : Nat) (v : Chunk Scalar), chunks[i]? = some v ∧
      sk • message_point m N ctx (coords m v.v,fun j => if j.val = i then 1 else 0) ≠ 0 := by
  have unit : ∀ (i : Fin N) (v : Chunk Scalar), chunks[i.val]? = some v → sealing sk ctx N m chunks (Pi.single i 1) =
      sk • message_point m N ctx (coords m v.v,fun j => if j.val = i.val then 1 else 0) := by
    intro i v found
    have data : weigh N (chunks.map fun c => coords m c.v) (Pi.single i (1 : Scalar)) = coords m v.v := by
      rw [weigh,Fintype.linearCombination_apply_single,one_smul]
      simp [List.getD_eq_getElem?_getD,found]
    have basis : (Pi.single i 1 : Fin N → Scalar) = fun j => if j.val = i.val then 1 else 0 := by
      funext j
      simp [Pi.single_apply,Fin.ext_iff]
    rw [← data,← basis]
    rfl
  constructor
  · intro nonzero
    by_contra all
    push Not at all
    refine nonzero (LinearMap.pi_ext' fun i => LinearMap.ext_ring ?_)
    have inside : i.val < chunks.length := count ▸ i.isLt
    have vanishes := all i.val _ (List.getElem?_eq_getElem inside)
    rw [← unit i _ (List.getElem?_eq_getElem inside)] at vanishes
    exact vanishes
  · rintro ⟨i,v,found,nonzero⟩ zero
    have inside : i < N := count ▸ (List.getElem?_eq_some_iff.mp found).1
    rw [← unit ⟨i,inside⟩ v found,zero,LinearMap.zero_apply] at nonzero
    exact nonzero rfl

/-- Sealed packets are read back unless their signature is the identity. -/
theorem bfkw_carried (keyed : Keyed m N sk ctx) (count : chunks.length = N) :
    Carried (BfkwScheme Scalar G1 G2 N) ctx m chunks (Sealed sk ctx m chunks) (sealing sk ctx N m chunks) where
  verifies p genuine := by
    obtain ⟨chunk,⟨sigma⟩⟩ := p
    obtain ⟨encodes,same⟩ := genuine
    obtain ⟨GT,_,_,defect,verifies,signed⟩ := verifies_linear (F := Scalar) keyed
    rw [verifies chunk _ encodes.width]
    simp only at same encodes
    rw [same,sealing_encodes count encodes]
    exact signed _
  encodes p genuine := genuine.1
  mixes packets decoder proofs stored some_packet genuine alphas long := by
    obtain ⟨chunk,ran,encoded⟩ := mix_encodes stored some_packet count (fun p member => (genuine p member).1) long
    obtain ⟨chunk',ran',_,_,coefficients⟩ := stored.reencode some_packet long
    obtain rfl : chunk = chunk' := Except.ok.inj (ran.symm.trans ran')
    have sigmas : proofs.map BfkwProof.sigma =
        (packets.map fun p => p.chunk.coefficients).map (sealing sk ctx N m chunks) := by
      rw [stored.aligned,List.map_map,List.map_map]
      exact List.map_congr_left fun p member => (genuine p member).2
    refine ⟨chunk,_,ran,rfl,encoded,?_⟩
    simp only
    rw [LawfulSpace.msm_eq _ _ (by rw [stored.aligned]; simp [long]),sigmas,← map_comb,coefficients]
  readable p genuine seen := by
    have nonzero : p.proof.sigma ≠ 0 := by rw [genuine.2]; exact seen
    have back := p.deserialize_serialize [] (bfkw_proof_back p.proof nonzero)
    rwa [List.append_nil,genuine.1.width] at back

omit [LawfulElement G2] [SliceRandom] in
/-- The proposer fills its decoder with the chunks of the block. -/
theorem bfkw_decoder_runs (signer : BfkwSigner Scalar G1) (points : ctx.hash_points.length = m + N)
    (count : chunks.length = N) (sizes : ∀ v ∈ chunks, v.v.length = m) :
    ∃ state : BlockDecoder Scalar N × List (BfkwProof G2), BfkwProtocol.init_decoder signer ctx chunks = .ok state := by
  obtain ⟨decoder,proofs,ran,_⟩ := BfkwStrategy.init_decoder_filled signer points count sizes
  exact ⟨(decoder,proofs),ran⟩

omit [LawfulElement G2] [SliceRandom] in
/-- What the proposer signs for a coded chunk of the block. -/
theorem sign_coded_sealed (signer : BfkwSigner Scalar G1) (points : ctx.hash_points.length = m + N)
    (count : chunks.length = N) (sizes : ∀ v ∈ chunks, v.v.length = m) (chunk : CodedChunk Scalar N) :
    signer.sign_coded N ctx (chunks.map Chunk.v) chunk.b = .ok ⟨sealing signer.sk ctx N m chunks chunk.coefficients⟩ := by
  have data : comb chunk.b ((chunks.map Chunk.v).map (coords m)) =
      weigh N (chunks.map fun c => coords m c.v) chunk.coefficients := by
    rw [List.map_map]
    exact comb_eq_weigh chunk.b (by rw [List.length_map,count])
  rw [sign_coded_spec signer points (by simp [count]) (by
    intro v listed
    obtain ⟨c,member,rfl⟩ := List.mem_map.mp listed
    exact sizes c member) chunk.b_length,data]
  rfl

omit [LawfulElement G2] [SliceRandom] in
/-- The proposer signs all its packets. -/
theorem sealed_packets (signer : BfkwSigner Scalar G1) (points : ctx.hash_points.length = m + N)
    (count : chunks.length = N) (sizes : ∀ v ∈ chunks, v.v.length = m) (coded : List (CodedChunk Scalar N)) :
    (coded.mapM fun chunk => do
        let proof ← signer.sign_coded N ctx (chunks.map Chunk.v) chunk.b
        return (SignedPacket.mk chunk proof).serialize) =
      (.ok (coded.map fun chunk =>
        (SignedPacket.mk chunk (⟨sealing signer.sk ctx N m chunks chunk.coefficients⟩ : BfkwProof G2)).serialize) :
        Rust (List Bytes)) := by
  induction coded with
  | nil => rfl
  | cons c coded ih =>
    rw [List.mapM_cons,ih,sign_coded_sealed signer points count sizes c]
    rfl

/-- Every packet of the proposer is sealed. -/
theorem bfkw_proposal {s t : BfkwProtocol Scalar G1 G2 N} {signer : BfkwSigner Scalar G1} (signs : s.signer = some signer)
    {block : Block} {degree : Nat} {rng rest : Rng} {proposal : Proposal}
    (ran : (protocol Scalar G1 G2 N).propose s block degree rng = .ok ((t,proposal),rest)) :
    (t.signer = s.signer ∧ t.m = s.m) ∧
    ∃ (chunks : List (Chunk Scalar)) (byte_len : Nat), block.as_chunks N s.m = .ok (chunks,byte_len) ∧
      ∀ bytes ∈ proposal.packets, ∃ p : SignedPacket Scalar N (BfkwProof G2), bytes = p.serialize ∧
        Sealed signer.sk (signer.setup_context N (to_be 8 block.number.toNat) s.m) s.m chunks p := by
  simp only [protocol,BfkwProtocol.propose,bind_ok] at ran
  obtain ⟨⟨⟨coded,byte_len⟩,rng'⟩,encoded,⟨chunks,length⟩,split,signer',known,packets,sent,⟨decoder,proofs⟩,_,ran⟩ := ran
  simp only [pure_eq,Except.ok.injEq,Prod.mk.injEq] at ran
  obtain ⟨⟨rfl,rfl⟩,rfl⟩ := ran
  simp only [signs,expect,Except.ok.injEq] at known
  obtain rfl := known
  obtain ⟨_,_,parts⟩ := Block.as_chunks_ok split
  obtain ⟨originals,split',_,each⟩ := Block.encode_chunks_ok encoded
  obtain ⟨rfl,_⟩ := ok_pair (split.symm.trans split')
  refine ⟨⟨rfl,rfl⟩,chunks,length,split,fun bytes member => ?_⟩
  obtain ⟨chunk,listed,made⟩ := mapM_each sent bytes member
  rw [sign_coded_sealed signer (m := s.m) (by simp [BfkwSigner.setup_context,derive_hash_points]) parts.count parts.sizes chunk]
    at made
  obtain rfl := Except.ok.inj made
  exact ⟨⟨chunk,_⟩,rfl,each chunk listed,rfl⟩

/-- A signature that is the identity is refused. -/
theorem bfkw_refused {proof q : BfkwProof G2} {more rest : Bytes}
    (ran : (IntegrityProof.deserialize_proof : Reader (BfkwProof G2)).run
      (IntegrityProof.serialize_proof proof ++ more) = .ok (q,rest)) : proof.sigma ≠ 0 := by
  intro zero
  simp only [IntegrityProof.deserialize_proof,IntegrityProof.serialize_proof,run_bind_ok,zero] at ran
  obtain ⟨_,_,refused,_⟩ := ran
  exact LawfulElement.rejects_zero _ _ ((map_err_ok _ _ _ _).mp refused)

/-- Some chunk of the block is signed with a point other than the identity. -/
def Seals (G2 : Type) [AddCommGroup G2] [Module Scalar G2] [Space Scalar G2] [HashToGroup G2]
    (signer : BfkwSigner Scalar G1) (N m : Nat) (block : Block) : Prop :=
  ∃ (chunks : List (Chunk Scalar)) (byte_len i : Nat) (v : Chunk Scalar) (proof : BfkwProof G2),
    block.as_chunks N m = .ok (chunks,byte_len) ∧ chunks[i]? = some v ∧
    signer.sign N (signer.setup_context N (to_be 8 block.number.toNat) m) i v.v = .ok proof ∧ proof.sigma ≠ 0

theorem seals_iff {signer : BfkwSigner Scalar G1} {block : Block} {byte_len : Nat}
    (split : block.as_chunks N m = .ok (chunks,byte_len)) :
    Seals G2 signer N m block ↔
      sealing signer.sk (signer.setup_context N (to_be 8 block.number.toNat) m : BfkwContext G1 G2) N m chunks ≠ 0 := by
  obtain ⟨_,_,parts⟩ := Block.as_chunks_ok split
  obtain ⟨context,named⟩ : ∃ context : BfkwContext G1 G2,
      context = signer.setup_context N (to_be 8 block.number.toNat) m := ⟨_,rfl⟩
  have points : context.hash_points.length = m + N := by simp [named,BfkwSigner.setup_context,derive_hash_points]
  have signs : ∀ {i : Nat} {v : Chunk Scalar}, chunks[i]? = some v → signer.sign N context i v.v =
      .ok ⟨signer.sk • message_point m N context (coords m v.v,fun j => if j.val = i then 1 else 0)⟩ := by
    intro i v found
    obtain ⟨inside,rfl⟩ := List.getElem?_eq_some_iff.mp found
    exact sign_spec signer points (parts.sizes _ (List.getElem_mem inside)) (parts.count ▸ inside)
  rw [← named,sealing_nonzero_iff parts.count]
  constructor
  · rintro ⟨others,_,i,v,proof,split',found,signed,nonzero⟩
    obtain ⟨rfl,_⟩ := ok_pair (split.symm.trans split')
    rw [← named,signs found] at signed
    obtain rfl := Except.ok.inj signed
    exact ⟨i,v,found,nonzero⟩
  · rintro ⟨i,v,found,nonzero⟩
    exact ⟨chunks,byte_len,i,v,_,split,found,by rw [← named]; exact signs found,nonzero⟩

/-- The proposer can send its packets with any coefficients without zeros. -/
theorem bfkw_offers [LawfulRandom Scalar] {s : BfkwProtocol Scalar G1 G2 N} {signer : BfkwSigner Scalar G1} (signs : s.signer = some signer)
    {block : Block} (fits : Block.Fits Scalar block N s.m) {byte_len : Nat}
    (split : block.as_chunks N s.m = .ok (chunks,byte_len)) (degree : Nat) :
    Offers (protocol Scalar G1 G2 N)
      (Sealed (N := N) signer.sk (signer.setup_context N (to_be 8 block.number.toNat) s.m : BfkwContext G1 G2) s.m chunks)
      s block degree := by
  intro xs long nonzero
  subst long
  obtain ⟨_,_,parts⟩ := Block.as_chunks_ok split
  obtain ⟨context,named⟩ : ∃ context : BfkwContext G1 G2,
      context = signer.setup_context N (to_be 8 block.number.toNat) s.m := ⟨_,rfl⟩
  have points : context.hash_points.length = s.m + N := by
    simp [named,BfkwSigner.setup_context,derive_hash_points]
  rw [← named]
  obtain ⟨draws,coded,encoded,all⟩ := encode_chunks_given fits split xs nonzero
  obtain ⟨⟨decoder,proofs⟩,filled⟩ := bfkw_decoder_runs signer points parts.count parts.sizes
  refine ⟨draws,fun rest => ⟨{ s with decoder := decoder, proofs := proofs, ctx := some context, byte_len := byte_len },
    to_be 8 byte_len,coded.map fun chunk => ⟨chunk,⟨sealing signer.sk context N s.m chunks chunk.coefficients⟩⟩,?_,
    by rw [to_be_length],?_⟩⟩
  · simp only [protocol,BfkwProtocol.propose,encoded,ok_bind,split,signs,expect,← named]
    rw [sealed_packets signer points parts.count parts.sizes coded]
    simp only [ok_bind,filled,pure_eq,List.map_map]
    rfl
  · rw [List.forall₂_map_right_iff]
    exact all.imp fun x c good => ⟨⟨good.1,rfl⟩,good.2⟩

variable {config : Config (BfkwProtocol Scalar G1 G2 N) K} {block : Block} {degree : Nat} {signer : BfkwSigner Scalar G1}

theorem bfkw_ready (deployed : Deployed (BfkwProtocol.new m signer.pk) signer config degree) :
    Ready view (number_context N m signer.pk : Nat → BfkwContext G1 G2) m config := by
  obtain ⟨signers,_,fresh⟩ := deployed.fresh
  intro k
  rw [fresh k]
  exact ⟨⟨rfl,rfl⟩,rfl,rfl⟩

/-- What the proposer of a deployed network holds. -/
theorem bfkw_source (deployed : Deployed (BfkwProtocol.new m signer.pk) signer config degree) :
    (config.protocol config.source).signer = some signer ∧ (config.protocol config.source).m = m := by
  obtain ⟨signers,signs,fresh⟩ := deployed.fresh
  rw [fresh]
  exact ⟨signs,rfl⟩

/-- A block that is decoded fits, not all its chunks are signed with the identity, and there are enough packets. -/
theorem bfkw_needs [LawfulSliceRandom] (some_chunk : 0 < N) (deployed : Deployed (BfkwProtocol.new m signer.pk) signer config degree)
    (decodable : Decodable (protocol Scalar G1 G2 N) config block) :
    Block.Fits Scalar block N m ∧ Seals G2 signer N m block ∧ Enough N (config.peers config.source).length degree := by
  obtain ⟨known,same⟩ := bfkw_source deployed
  obtain ⟨rng,t,proposal,rest,ran,⟨bytes,member,q,read⟩,enough⟩ :=
    decodable_needs coded proposes some_chunk (bfkw_ready deployed) deployed.meshed deployed.some_receiver decodable
  obtain ⟨_,chunks,byte_len,split,each⟩ := bfkw_proposal known ran
  obtain ⟨p,rfl,encodes,sigma⟩ := each bytes member
  rw [same] at split encodes sigma
  refine ⟨(Block.as_chunks_ok split).1,?_,enough⟩
  rw [seals_iff split]
  intro zero
  rw [zero,LinearMap.zero_apply] at sigma
  rw [← encodes.width] at read
  obtain ⟨_,left,proof_read⟩ := p.deserialize_written [] (by rw [List.append_nil]; exact read)
  exact bfkw_refused proof_read sigma

/-- A block that fits is decoded in some schedule, with a signature to carry and enough packets. -/
theorem bfkw_delivers [LawfulRandom Scalar] [LawfulSliceRandom] (some_chunk : 0 < N) (keyed : signer.Keyed G2)
    (deployed : Deployed (BfkwProtocol.new m signer.pk) signer config degree) (generated : Generated config block)
    (fits : Block.Fits Scalar block N m) (seals : Seals G2 signer N m block)
    (enough : Enough N (config.peers config.source).length degree) : Decodable (protocol Scalar G1 G2 N) config block := by
  obtain ⟨known,same⟩ := bfkw_source deployed
  obtain ⟨chunks,split,parts⟩ := Block.as_chunks_spec (F := Scalar) block fits
  have first : block.number.toNat = 0 := by
    obtain ⟨rng,rfl⟩ := generated
    rfl
  have context : (number_context N m signer.pk 0 : BfkwContext G1 G2) =
      signer.setup_context N (to_be 8 block.number.toNat) m := by rw [first]; rfl
  have offers := bfkw_offers known (by rw [same]; exact fits) (by rw [same]; exact split) degree
  rw [same] at offers
  have carried := bfkw_carried (setup_keyed (m := m) signer keyed (to_be 8 block.number.toNat)) parts.count
  rw [← context] at carried offers
  have some_image := (seals_iff split).mp seals
  rw [← context] at some_image
  exact decodable_of_enough roomy_scalar some_image some_chunk coded carried (bfkw_ready deployed) deployed.meshed offers
    generated enough

variable (config block) in
/-- With BFKW signatures a block is decoded by every receiver, in some schedule, exactly when it
    fits, not all its chunks are signed with the identity, and there are enough packets. -/
theorem bfkw_decodable_iff [LawfulRandom Scalar] [LawfulSliceRandom] (some_chunk : 0 < N) {signer : BfkwSigner Scalar G1} (keyed : signer.Keyed G2)
    {signers : K → Option (BfkwSigner Scalar G1)} (signs : signers config.source = some signer)
    (fresh : ∀ k, config.protocol k = BfkwProtocol.new m signer.pk (signers k)) (meshed : Meshed config degree)
    (some_receiver : 1 ≤ (config.peers config.source).length)
    (generated : ∃ rng, (generate_random_block config.block_size 0 rng).1 = block) :
    Decodable (protocol Scalar G1 G2 N) config block ↔
      Block.Fits Scalar block N m ∧ Seals G2 signer N m block ∧ Enough N (config.peers config.source).length degree := by
  have deployed : Deployed (BfkwProtocol.new m signer.pk) signer config degree :=
    ⟨⟨signers,signs,fresh⟩,meshed,some_receiver⟩
  constructor
  · exact bfkw_needs some_chunk deployed
  · rintro ⟨fits,seals,enough⟩
    exact bfkw_delivers some_chunk keyed deployed generated fits seals enough

end

/-! ### Twelve nodes -/

section
variable {σ Key : Type}

/-- Nodes that are all peers of each other, of which the first has the key and proposes. -/
def all_peers (new : Option Key → σ) (signer : Key) (n degree num_blocks block_size : Nat) [NeZero n] : Config σ (Fin n) :=
  ⟨0,fun k => new (if k = 0 then some signer else none),fun k => (List.finRange n).filter (· ≠ k),fun _ => degree,
    fun _ => Stream'.const 1,fun _ => num_blocks,block_size⟩

variable {new : Option Key → σ} {signer : Key} {n degree num_blocks block_size : Nat} [NeZero n]

theorem all_peers_meshed (some_block : 0 < num_blocks) (limited : num_blocks < 2 ^ 64) :
    Meshed (all_peers new signer n degree num_blocks block_size) degree where
  nodup k := List.Nodup.filter (· ≠ k) (List.nodup_finRange n)
  peers k j := by simp [all_peers]
  degree _ := rfl
  blocks _ := some_block
  limited _ := limited

theorem all_peers_count :
    ((all_peers new signer n degree num_blocks block_size).peers (all_peers new signer n degree num_blocks block_size).source).length =
      n - 1 := by
  have erased : (List.finRange n).filter (fun j => decide (j ≠ 0)) = (List.finRange n).erase 0 := by
    rw [(List.nodup_finRange n).erase_eq_filter]
    refine List.filter_congr fun j _ => ?_
    by_cases first : j = 0 <;> simp [first]
  show ((List.finRange n).filter fun j => decide (j ≠ 0)).length = n - 1
  rw [erased,List.length_erase_of_mem (List.mem_finRange 0),List.length_finRange]

theorem all_peers_deployed (some_block : 0 < num_blocks) (limited : num_blocks < 2 ^ 64) (two : 2 ≤ n) :
    Deployed new signer (all_peers new signer n degree num_blocks block_size) degree where
  fresh := ⟨fun k => if k = 0 then some signer else none,if_pos rfl,fun _ => rfl⟩
  meshed := all_peers_meshed some_block limited
  some_receiver := by rw [all_peers_count]; omega

end

section
open Rlnc.Reference Rlnc.Pedersen Rlnc.PedersenProtocol Rlnc.Bfkw Rlnc.BfkwProtocol

private def some_block : Block := (generate_random_block 0 0 (Stream'.const 1)).1

private theorem some_block_fits : Block.Fits Scalar some_block 10 1 := by
  unfold Block.Fits
  decide +kernel

private def twelve_pedersen (degree : Nat) : Config (PedersenProtocol Scalar Scalar Bytes Bytes UInt64 10) (Fin 12) :=
  all_peers (PedersenProtocol.new 1 [7]) ⟨[7]⟩ 12 degree 1 0

private def twelve_bfkw (degree : Nat) : Config (BfkwProtocol Scalar Scalar Scalar 10) (Fin 12) :=
  all_peers (BfkwProtocol.new 1 (scalar 3)) ⟨scalar 3,scalar 3⟩ 12 degree 1 0

/-- The signature of the first chunk. -/
private def first_signature : Rust (BfkwProof Scalar) := do
  let (chunks,_) ← (some_block.as_chunks 10 1 : Rust (List (Chunk Scalar) × Nat))
  let v ← index chunks 0
  let signer : BfkwSigner Scalar Scalar := ⟨scalar 3,scalar 3⟩
  signer.sign 10 (signer.setup_context 10 (to_be 8 some_block.number.toNat) 1) 0 v.v

/-- Ten chunks are decoded with ten packets, and not with eight. -/
theorem pedersen_decodable_iff_twelve :
    Decodable (PedersenProtocol.protocol Scalar Scalar Bytes Bytes UInt64 10) (twelve_pedersen 10) some_block ∧
    ¬Decodable (PedersenProtocol.protocol Scalar Scalar Bytes Bytes UInt64 10) (twelve_pedersen 8) some_block := by
  have each : ∀ degree, Decodable (PedersenProtocol.protocol Scalar Scalar Bytes Bytes UInt64 10) (twelve_pedersen degree)
      some_block ↔ Block.Fits Scalar some_block 10 1 ∧ 10 ≤ 1024 ∧ Enough 10 11 degree := by
    intro degree
    obtain ⟨⟨signers,signs,fresh⟩,meshed,some_receiver⟩ : Deployed (PedersenProtocol.new 1 [7]) (⟨[7]⟩ : PedersenSigner Bytes)
      (twelve_pedersen degree) degree := all_peers_deployed (by decide) (by decide) (by decide)
    have exactly := pedersen_decodable_iff (twelve_pedersen degree) some_block (by decide) (by decide) signs fresh meshed
      some_receiver ⟨_,rfl⟩
    rwa [twelve_pedersen,all_peers_count] at exactly
  rw [each,each]
  exact ⟨⟨some_block_fits,by decide,by decide⟩,fun all => absurd all.2.2 (by decide)⟩

/-- The same with signatures, the first of which is not the identity. -/
theorem bfkw_decodable_iff_twelve :
    Decodable (BfkwProtocol.protocol Scalar Scalar Scalar 10) (twelve_bfkw 10) some_block ∧
    ¬Decodable (BfkwProtocol.protocol Scalar Scalar Scalar 10) (twelve_bfkw 8) some_block := by
  have each : ∀ degree, Decodable (BfkwProtocol.protocol Scalar Scalar Scalar 10) (twelve_bfkw degree) some_block ↔
      Block.Fits Scalar some_block 10 1 ∧ Seals Scalar (⟨scalar 3,scalar 3⟩ : BfkwSigner Scalar Scalar) 10 1 some_block ∧
        Enough 10 11 degree := by
    intro degree
    obtain ⟨⟨signers,signs,fresh⟩,meshed,some_receiver⟩ : Deployed (BfkwProtocol.new 1 (scalar 3))
      (⟨scalar 3,scalar 3⟩ : BfkwSigner Scalar Scalar) (twelve_bfkw degree) degree :=
      all_peers_deployed (by decide) (by decide) (by decide)
    have exactly := bfkw_decodable_iff (twelve_bfkw degree) some_block (by decide) (by unfold BfkwSigner.Keyed; decide +kernel)
      signs fresh meshed some_receiver ⟨_,rfl⟩
    rwa [twelve_bfkw,all_peers_count] at exactly
  rw [each,each]
  refine ⟨⟨some_block_fits,?_,by decide⟩,fun all => absurd all.2.2 (by decide)⟩
  have seen : (match first_signature with
      | .ok proof => decide (proof.sigma ≠ 0)
      | .error _ => false) = true := by decide +kernel
  split at seen
  case h_2 => cases seen
  rename_i proof ran
  simp only [first_signature,bind_ok,index_eq_ok] at ran
  obtain ⟨⟨chunks,byte_len⟩,split,v,found,signed⟩ := ran
  exact ⟨chunks,byte_len,0,v,proof,split,found,signed,of_decide_eq_true seen⟩

end

end Rlnc.Delivery
