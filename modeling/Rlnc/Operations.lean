import Rlnc.BfkwProtocol
import Rlnc.PedersenProtocol

/-!
Operations on a protocol and runs of them. A message that is refused or brings
nothing leaves the whole state of a protocol as it was (`Inert`), so that it can be
left out of any run (`without_idle_run`); a packet that a coded protocol accepts is
appended to what it stores, and raises its rank by one (`Appends`).
-/
namespace Rlnc.Operations
open Rlnc.Panics Rlnc.Wire Rlnc.Packing Rlnc.Coding Rlnc.Draws Rlnc.Blocks Rlnc.Groups Rlnc.Integrity Rlnc.Protocols
set_option linter.unusedSectionVars false

/-! ### Runs of a protocol -/

/-- What can be asked of a protocol, with the randomness that it gets. -/
inductive Operation
  | Propose (block : Block) (num_targets : Nat) (rng : Rng)
  | Ingest (channel : Channel) (block_num : Nat) (data : Bytes)
  | Recode (num_targets : Nat) (rng : Rng)
  | Decode
  | Reset

/-- What an operation returns. -/
inductive Outcome
  | Proposed (proposal : Proposal) (rest : Rng)
  | Ingested (r : Except String Bool)
  | Recoded (packets : List Bytes) (rest : Rng)
  | Decoded (block : Block)
  | Done

/-- A message that was refused or brought nothing. -/
def Outcome.idle : Outcome → Bool
  | .Ingested (.ok useful) => !useful
  | .Ingested (.error _) => true
  | _ => false

section
variable {σ : Type} (P : Protocol σ)

def perform (s : σ) : Operation → Rust (σ × Outcome)
  | .Propose block num_targets rng => do
    let ((s,proposal),rest) ← P.propose s block num_targets rng
    return (s,.Proposed proposal rest)
  | .Ingest channel block_num data => do
    let (s,r) ← P.ingest s channel block_num data
    return (s,.Ingested r)
  | .Recode num_targets rng => do
    let (packets,rest) ← P.recode s num_targets rng
    return (s,.Recoded packets rest)
  | .Decode => do
    let (block,s) ← P.decode s
    return (s,.Decoded block)
  | .Reset => .ok (P.reset s,.Done)

/-- Perform the operations one after the other. -/
def run (s : σ) : List Operation → Rust (σ × List Outcome)
  | [] => .ok (s,[])
  | op :: ops => do
    let (s,outcome) ← perform P s op
    let (s,outcomes) ← run s ops
    return (s,outcome :: outcomes)

/-- The operations without the messages that are idle when their turn comes. -/
def without_idle (s : σ) : List Operation → List Operation
  | [] => []
  | op :: ops =>
    match perform P s op with
    | .error _ => op :: ops
    | .ok (s,outcome) => if outcome.idle then without_idle s ops else op :: without_idle s ops

/-- A message that is refused or brings nothing changes nothing. -/
def Inert : Prop := ∀ s channel n data s' r, P.ingest s channel n data = .ok (s',r) → r ≠ .ok true → s' = s

/-- Without its idle messages a run ends in the same state, or with the same panic, and
    returns the same to the other operations. -/
def Skips : Prop := ∀ s ops, run P s (without_idle P s ops) =
  (run P s ops).map (fun r => (r.1,r.2.filter (fun outcome => !outcome.idle)))

variable {P}

theorem Inert.perform (inert : Inert P) {s s' : σ} {op : Operation} {outcome : Outcome}
    (ran : perform P s op = .ok (s',outcome)) (idle : outcome.idle = true) : s' = s := by
  cases op with
  | Ingest channel n data =>
    simp only [Operations.perform,bind_ok,pure_eq,Except.ok.injEq,Prod.mk.injEq] at ran
    obtain ⟨⟨after,r⟩,ingested,rfl,rfl⟩ := ran
    refine inert s channel n data after r ingested ?_
    rintro rfl
    cases idle
  | Propose block count rng =>
    simp only [Operations.perform,bind_ok,pure_eq,Except.ok.injEq,Prod.mk.injEq] at ran
    obtain ⟨_,_,_,rfl⟩ := ran
    cases idle
  | Recode count rng =>
    simp only [Operations.perform,bind_ok,pure_eq,Except.ok.injEq,Prod.mk.injEq] at ran
    obtain ⟨_,_,_,rfl⟩ := ran
    cases idle
  | Decode =>
    simp only [Operations.perform,bind_ok,pure_eq,Except.ok.injEq,Prod.mk.injEq] at ran
    obtain ⟨_,_,_,rfl⟩ := ran
    cases idle
  | Reset =>
    obtain ⟨_,rfl⟩ := ok_pair ran
    cases idle

theorem without_idle_run (inert : Inert P) : Skips P := by
  intro s ops
  induction ops generalizing s with
  | nil => rfl
  | cons op ops ih =>
    cases ran : perform P s op with
    | error p => simp only [without_idle,ran,run,error_bind,Except.map]
    | ok r =>
      obtain ⟨s',outcome⟩ := r
      by_cases idle : outcome.idle = true
      · obtain rfl := inert.perform ran idle
        simp only [without_idle,ran,if_pos idle,run,ok_bind]
        rw [ih]
        cases run P s' ops with
        | error p => rfl
        | ok r => simp [Except.map,idle]
      · simp only [without_idle,ran,if_neg idle,run,ok_bind]
        rw [ih]
        cases run P s' ops with
        | error p => rfl
        | ok r => simp [Except.map,idle]

/-- What each operation preserves, and holds of what it returns, holds throughout a run. -/
theorem run_keeps (Inv : σ → Prop) (Good : Outcome → Prop)
    (step : ∀ s op s' outcome, Inv s → perform P s op = .ok (s',outcome) → Inv s' ∧ Good outcome) {s s' : σ}
    {ops : List Operation} {outcomes : List Outcome} (start : Inv s) (ran : run P s ops = .ok (s',outcomes)) :
    Inv s' ∧ ∀ outcome ∈ outcomes, Good outcome := by
  induction ops generalizing s outcomes with
  | nil =>
    obtain ⟨rfl,rfl⟩ := ok_pair ran
    exact ⟨start,by simp⟩
  | cons op ops ih =>
    simp only [run,bind_ok,pure_eq,Except.ok.injEq,Prod.mk.injEq] at ran
    obtain ⟨⟨middle,first⟩,performed,⟨last,later⟩,rest,rfl,rfl⟩ := ran
    obtain ⟨kept,good⟩ := step s op middle first start performed
    obtain ⟨kept',good'⟩ := ih kept rest
    exact ⟨kept',List.forall_mem_cons.mpr ⟨good,good'⟩⟩

end

/-! ### The three protocols -/

section
variable {σ F : Type} [Field F] [DecidableEq F] [PackableField F] [FixedCodec F] [Random F] {N : Nat} {Context Proof : Type}
  [IntegrityProof Proof] [FixedCodec UInt32] [FixedCodec UInt64] [BytesCodec]

/-- A packet that a coded protocol accepts is appended with its proof, raises the rank by
    one, and changes nothing else. -/
def Appends (P : Protocol σ) (view : σ → CodedState F N Context Proof) : Prop :=
  ∀ s n data s', P.ingest s .Data n data = .ok (s',.ok true) → ∃ packet : SignedPacket F N Proof,
    SignedPacket.deserialize data (view s).m = .ok (.ok packet) ∧
    (view s').decoder.coded_chunks = (view s).decoder.coded_chunks ++ [packet.chunk] ∧
    (view s').decoder.rank = (view s).decoder.rank + 1 ∧
    view s' = { view s with decoder := (view s').decoder, proofs := (view s).proofs ++ [packet.proof] }

end

section
variable {F G S PublicKey Signature G1 G2 : Type} [Field F] [DecidableEq F] [PackableField F] [FixedCodec F] [Random F]
  [AddCommGroup G] [DecidableEq G] [Module F G] [Space F G] [HashToGroup G] [FixedCodec G]
  [Verifier PublicKey Signature] [Signer S PublicKey Signature] [FixedCodec Signature] [AddCommGroup G1] [Module F G1]
  [AddCommGroup G2] [Module F G2] [Space F G2] [HashToGroup G2] [PairingGroup G1 G2] [FixedCodec G2] [FixedCodec UInt32]
  [FixedCodec UInt64] [BytesCodec] {N : Nat}

/-- What a data packet does: it is refused, or it is received into the decoder and the proofs. -/
theorem pedersen_data {s s' : PedersenProtocol F G S PublicKey Signature N} {n : Nat} {data : Bytes}
    {r : Except String Bool} (ran : s.ingest .Data n data = .ok (s',r)) :
    r ≠ .ok true ∧ s' = s ∨ r = .ok true ∧ ∃ (packet : SignedPacket F N (Pedersen.PedersenProof G Signature))
      (decoder : BlockDecoder F N), SignedPacket.deserialize data s.m = .ok (.ok packet) ∧
      decoder.coded_chunks = s.decoder.coded_chunks ++ [packet.chunk] ∧ decoder.rank = s.decoder.rank + 1 ∧
      s' = { s with decoder := decoder, proofs := s.proofs ++ [packet.proof] } := by
  simp only [PedersenProtocol.ingest,bind_ok] at ran
  obtain ⟨parsed,read,ran⟩ := ran
  cases parsed with
  | error e =>
    obtain ⟨rfl,rfl⟩ := ok_pair ran
    exact .inl ⟨by simp,rfl⟩
  | ok packet =>
    simp only [bind_ok] at ran
    obtain ⟨⟨⟨decoder,proofs⟩,result⟩,received,ran⟩ := ran
    obtain ⟨rfl,rfl⟩ := ok_pair ran
    rcases coded_receive_cases received with ⟨idle,same⟩ | ⟨accepted,chunks,rfl,raised⟩
    · obtain ⟨rfl,rfl⟩ := Prod.mk.inj same
      exact .inl ⟨idle,rfl⟩
    · exact .inr ⟨accepted,packet,decoder,read,chunks,raised,rfl⟩

theorem bfkw_data {s s' : BfkwProtocol F G1 G2 N} {n : Nat} {data : Bytes}
    {r : Except String Bool} (ran : s.ingest .Data n data = .ok (s',r)) :
    r ≠ .ok true ∧ s' = s ∨ r = .ok true ∧ ∃ (packet : SignedPacket F N (Bfkw.BfkwProof G2))
      (decoder : BlockDecoder F N), SignedPacket.deserialize data s.m = .ok (.ok packet) ∧
      decoder.coded_chunks = s.decoder.coded_chunks ++ [packet.chunk] ∧ decoder.rank = s.decoder.rank + 1 ∧
      s' = { s with decoder := decoder, proofs := s.proofs ++ [packet.proof] } := by
  obtain ⟨signer,m,proposer_pk,decoder,proofs,ctx,byte_len⟩ := s
  cases ctx with
  | none =>
    obtain ⟨rfl,rfl⟩ := ok_pair ran
    exact .inl ⟨by simp,rfl⟩
  | some ctx =>
    simp only [BfkwProtocol.ingest,bind_ok] at ran
    obtain ⟨parsed,read,ran⟩ := ran
    cases parsed with
    | error e =>
      obtain ⟨rfl,rfl⟩ := ok_pair ran
      exact .inl ⟨by simp,rfl⟩
    | ok packet =>
      simp only [bind_ok] at ran
      obtain ⟨⟨⟨decoder',proofs'⟩,result⟩,received,ran⟩ := ran
      obtain ⟨rfl,rfl⟩ := ok_pair ran
      rcases coded_receive_cases received with ⟨idle,same⟩ | ⟨accepted,chunks,rfl,raised⟩
      · obtain ⟨rfl,rfl⟩ := Prod.mk.inj same
        exact .inl ⟨idle,rfl⟩
      · exact .inr ⟨accepted,packet,decoder',read,chunks,raised,rfl⟩

/-- The announcement of any protocol is refused without a change, or accepted. -/
private theorem announced {σ : Type} {short : Prop} [Decidable short] {s t s' : σ} {e : String} {r : Except String Bool}
    (ran : (if short then .ok (s,.error e) else .ok (t,.ok true) : Rust (σ × Except String Bool)) = .ok (s',r))
    (idle : r ≠ .ok true) : s' = s := by
  split at ran
  · exact (ok_pair ran).1.symm
  · exact absurd (ok_pair ran).2.symm idle

theorem pedersen_inert : Inert (PedersenProtocol.protocol F G S PublicKey Signature N) := by
  intro s channel n data s' r ran idle
  cases channel with
  | Announce => exact announced ran idle
  | Data =>
    rcases pedersen_data (n := n) ran with ⟨_,same⟩ | ⟨accepted,_⟩
    · exact same
    · exact absurd accepted idle

theorem bfkw_inert : Inert (BfkwProtocol.protocol F G1 G2 N) := by
  intro s channel n data s' r ran idle
  cases channel with
  | Announce => exact announced ran idle
  | Data =>
    rcases bfkw_data (n := n) ran with ⟨_,same⟩ | ⟨accepted,_⟩
    · exact same
    · exact absurd accepted idle

theorem baseline_inert : Inert BaselineProtocol.protocol := by
  intro s channel n data s' r ran idle
  cases channel with
  | Announce => exact announced ran idle
  | Data =>
    simp only [BaselineProtocol.protocol,BaselineProtocol.ingest] at ran
    split at ran
    · exact (ok_pair ran).1.symm
    · cases decoded : Block.decode data with
      | error e =>
        rw [decoded] at ran
        exact (ok_pair ran).1.symm
      | ok block =>
        rw [decoded] at ran
        exact absurd (ok_pair ran).2.symm idle

theorem pedersen_appends : Appends (PedersenProtocol.protocol F G S PublicKey Signature N) PedersenProtocol.view := by
  intro s n data s' ran
  rcases pedersen_data (n := n) ran with ⟨idle,_⟩ | ⟨_,packet,decoder,read,chunks,raised,rfl⟩
  · exact absurd rfl idle
  · exact ⟨packet,read,chunks,raised,rfl⟩

theorem bfkw_appends : Appends (BfkwProtocol.protocol F G1 G2 N) BfkwProtocol.view := by
  intro s n data s' ran
  rcases bfkw_data (n := n) ran with ⟨idle,_⟩ | ⟨_,packet,decoder,read,chunks,raised,rfl⟩
  · exact absurd rfl idle
  · exact ⟨packet,read,chunks,raised,rfl⟩

variable (F G S PublicKey Signature G1 G2 N) in
/-- In every protocol a refused or redundant message leaves the whole state as it was, and
    can be left out of any run; the coded protocols append exactly what they accept. -/
theorem idle_messages :
    (Inert (PedersenProtocol.protocol F G S PublicKey Signature N) ∧ Skips (PedersenProtocol.protocol F G S PublicKey Signature N) ∧
      Appends (PedersenProtocol.protocol F G S PublicKey Signature N) PedersenProtocol.view) ∧
    (Inert (BfkwProtocol.protocol F G1 G2 N) ∧ Skips (BfkwProtocol.protocol F G1 G2 N) ∧
      Appends (BfkwProtocol.protocol F G1 G2 N) BfkwProtocol.view) ∧
    Inert BaselineProtocol.protocol ∧ Skips BaselineProtocol.protocol :=
  ⟨⟨pedersen_inert,without_idle_run pedersen_inert,pedersen_appends⟩,
    ⟨bfkw_inert,without_idle_run bfkw_inert,bfkw_appends⟩,baseline_inert,without_idle_run baseline_inert⟩

end

end Rlnc.Operations
