import BlockCalculus.Proofs.Bytecode.RoundTrip
import BlockCalculus.Proofs.Reduction.Memory
import BlockCalculus.Reduction.Source
import Mathlib

/-! Reduction of bytecode. A run brings in no names, so its result can be written
again. Bytes say nothing of what was shared where they were written: reading them
builds every quotation anew, and a guard that compares quotations of a NaN can tell. -/

namespace BlockCalculus.Reduction

variable {σ : Type} {host : Host σ}

theorem names_reduce (hh : host.Fixed Host.refuse) {b : Block} (hb : b.names = []) (quota : Nat)
    (memory : σ) : (reduce host quota b memory).1.block.names = [] := by
  rw [List.eq_nil_iff_forall_not_mem] at hb ⊢
  intro n hn
  have hx := mem_atoms_of_mem_reduceCell hh.setting (Block.mem_names_iff.mp hn)
  rw [Cell.atoms, Cell.block_ofBlock] at hx
  exact hb n (Block.mem_names_iff.mpr hx)

/-- Composing a block beforehand makes no difference, unless that makes it empty:
then there would be nothing left to do. -/
theorem State.initial_compose {b : Block} (hb : b = .empty ∨ 0 < b.size) :
    State.initial 0 (.ofBlock (.compose [b])) = State.initial 0 (.ofBlock b) := by
  by_cases he : b = .empty
  · subst he
    rfl
  · have hs := hb.resolve_left he
    have hne {c : Block} (hc : c ≠ .empty) : Cell.ofBlock c ≠ .empty := mt Cell.eq_empty_of_ofBlock hc
    have hc : Block.compose [b] ≠ .empty := by
      intro h
      have hp : (Block.compose [b]).pieces = [] := by rw [h]; rfl
      rw [Block.pieces_compose, List.flatMap_singleton, Block.pieces_eq_nil_iff] at hp
      omega
    have hcompose (c : Block) : Cell.compose [.ofBlock c] = .ofBlock (.compose [c]) :=
      Cell.compose_map_ofBlock [c]
    rw [State.initial_of_ne_empty 0 (hne hc), State.initial_of_ne_empty 0 (hne he), hcompose, hcompose,
      Block.compose_singleton (Block.isNormal_compose [b])]

theorem reduceBytes_of_ok (host : Host σ) {bytes : Bytes} {b : Block} (h : Bytecode.decode bytes = .ok b)
    (quota : Nat) (memory : σ) :
    let r := reduce host.nameless quota b (host.record (.decoding bytes.length) memory)
    reduceBytes host quota bytes memory = (.ok r.1, r.2) := by
  simp [reduceBytes, decode, h]

theorem reduceBytes_of_error (host : Host σ) {bytes : Bytes} {cause : DecodeError}
    (h : Bytecode.decode bytes = .error cause) (quota : Nat) (memory : σ) :
    (reduceBytes host quota bytes memory).1 = .error (.bytecode cause) := by
  -- A quotation left open is recorded, so that error takes a way of its own.
  cases cause <;> simp [reduceBytes, decode, h]

/-- The bytes of a block without names are reduced as the block is when nothing in it is
shared; if there is no NaN in it, that is as it is reduced in memory, whatever it shares. The
result can be written and read again. Bytes that cannot be decoded are all that is refused. -/
theorem reduceBytes_of_encode (host : Host σ) (quota : Nat) (memory : σ) :
    (∀ c : Cell, c.block.names = [] → c = .empty ∨ 0 < c.block.size →
      ∃ bytes, Bytecode.encode c.block = .ok bytes ∧
        let r := reduce host.nameless quota c.block (host.record (.decoding bytes.length) memory)
        reduceBytes host quota bytes memory = (.ok r.1, r.2) ∧ r.1 = reduceAlone quota c.block ∧
        (∀ contents clock, c.Faithful contents clock → c.block.NaNFree →
          r.1 = reduceShared Host.refuse quota clock c) ∧
        r.1.block.names = [] ∧ r.1.block.isNormal ∧
        ∃ result, Bytecode.encode r.1.block = .ok result ∧
          Bytecode.decode result = .ok r.1.block) ∧
    ∀ bytes e, (reduceBytes host quota bytes memory).1 = .error e ↔
      ∃ cause, Bytecode.decode bytes = .error cause ∧ e = .bytecode cause := by
  refine ⟨fun c hc hs => ?_, fun bytes e => ⟨fun h => ?_, ?_⟩⟩
  · refine ⟨Bytecode.written c.block, Bytecode.encode_of_names_eq_nil hc, ?_⟩
    intro r
    have hb : c.block = .empty ∨ 0 < c.block.size := hs.imp (congrArg Cell.block) id
    have hrun := reduceBytes_of_ok host (Bytecode.decode_written hc) quota memory
    have hsame (m : σ) :
        reduce host.nameless quota (.compose [c.block]) m = reduce host.nameless quota c.block m := by
      rw [reduce, reduceCell, State.initial_compose hb]
      rfl
    have halone : r.1 = reduceAlone quota c.block :=
      reduce_eq_reduceWith host.nameless_fixed quota c.block _
    have hn : r.1.block.names = [] := names_reduce host.nameless_fixed hc quota _
    have hnormal : r.1.block.isNormal := Cell.isNormal_compose _
    rw [hsame] at hrun
    refine ⟨hrun, halone, fun contents clock hf hnan => ?_, hn, hnormal, _,
      Bytecode.encode_of_names_eq_nil hn, Bytecode.decode_written_of_isNormal hnormal hn⟩
    rw [halone]
    exact (reduceBy_eq_reduceWith (o := .inMemory Host.refuse) rfl (fun _ => rfl)
      (Oracle.inMemory_faithful Host.refuse contents clock) (by rintro n b ⟨⟩) hf hnan quota).symm
  · cases hd : Bytecode.decode bytes with
    | ok b =>
      rw [reduceBytes_of_ok host hd] at h
      cases h
    | error cause =>
      rw [reduceBytes_of_error host hd] at h
      exact ⟨cause, rfl, (Except.error.inj h).symm⟩
  · rintro ⟨cause, hd, rfl⟩
    exact reduceBytes_of_error host hd quota memory

/-- A program without end, out of normal form, whose budget runs out. Its first two quotations
are one in memory and pass `eq` on both ways. And a byte that is no opcode. -/
theorem reduceBytes_of_encode_endless :
    let host := Host.ofAnswers Host.refuse
    let again : Block := .pair (.prim .copy) (.prim .app)
    let one : Cell := .quote (.shared 0 [.body]) (.ofBlock again)
    let c : Cell := .pair .sole (.pair .sole one .sole .empty) .sole
      (Cell.ofItems [one, .prim .eq, .prim .drop, .prim .copy, .prim .app])
    let o := reduceShared Host.refuse 3 1 c
    o.exhausted = true ∧ o.block = .compose [.prim .app, .quote again, .quote again] ∧
      (∃ bytes, Bytecode.encode c.block = .ok bytes ∧ reduceBytes host 3 bytes () = (.ok o, ())) ∧
      (∃ result, Bytecode.encode o.block = .ok result ∧ Bytecode.decode result = .ok o.block) ∧
      (reduceBytes host 3 [0x42] ()).1 = .error (.bytecode (.unknownOpcode 0x42)) := by
  intro host again one c o
  have ho : o = ⟨.compose [.prim .app, .quote again, .quote again], [], 3, 0, true⟩ := by
    simp only [o, c, one, again]
    cbv
  have hc : c.block.names = [] := rfl
  have hs : 0 < c.block.size := by decide
  have hfaithful : c.Faithful (fun _ _ => again) 1 := by
    simp [c, one, again, Cell.Faithful, Cell.ofItems, Cell.before, Cell.ofBlock, Label.Tells,
      Cell.block]
  have hnan : c.block.NaNFree := by
    simp [c, one, again, Block.NaNFree, Cell.block, Block.atoms, Block.ofItems]
  have hbyte : Bytecode.decode [0x42] = .error (.unknownOpcode 0x42) := by cbv
  obtain ⟨hcells, hrefused⟩ := reduceBytes_of_encode host 3 ()
  obtain ⟨bytes, hbytes, hrun, -, hsame, -, -, hresult⟩ := hcells c hc (.inr hs)
  rw [hsame _ 1 hfaithful hnan] at hrun hresult
  refine ⟨congrArg Outcome.exhausted ho, congrArg Outcome.block ho, ⟨bytes, hbytes, hrun⟩, hresult, ?_⟩
  exact (hrefused [0x42] _).mpr ⟨_, hbyte, rfl⟩

/-- Two quotations of a NaN that are one in memory pass `eq`. Their bytes are read as two
quotations, and `eq` gets stuck on these. -/
theorem reduceBytes_of_shared_nan :
    let host := Host.ofAnswers Host.refuse
    let nan : Block := .quote (.num ⟨0x7ff8000000000000⟩)
    let one : Cell := .quote (.shared 0 [.body]) (.num ⟨0x7ff8000000000000⟩)
    let c := Cell.ofItems [one, one, .prim .eq]
    c.Faithful (fun _ _ => .num ⟨0x7ff8000000000000⟩) 1 ∧ c.block.names = [] ∧ 0 < c.block.size ∧
      reduceShared Host.refuse 5 1 c = ⟨.compose [nan, nan], [], 1, 0, false⟩ ∧
      ∃ bytes, Bytecode.encode c.block = .ok bytes ∧
        (reduceBytes host 5 bytes ()).1 = .ok ⟨.compose [nan, nan, .prim .eq], [], 0, 1, false⟩ ∧
        (reduceBytes host 5 bytes ()).1 ≠ .ok (reduceShared Host.refuse 5 1 c) := by
  intro host nan one c
  have hfaithful : c.Faithful (fun _ _ => .num ⟨0x7ff8000000000000⟩) 1 := by
    simp [c, one, Cell.Faithful, Cell.ofItems, Cell.before, Label.Tells, Cell.block]
  have hmemory : reduceShared Host.refuse 5 1 c = ⟨.compose [nan, nan], [], 1, 0, false⟩ := by
    simp only [c, one, nan]
    cbv
  have hrun : (State.initial 0 (.ofBlock (.compose [c.block]))).runWith (.inMemory Host.refuse) 5 =
      ⟨5, ⟨[], [], [.prim .eq, .ofBlock nan, .ofBlock nan], [], 1, 0⟩, ()⟩ :=
    runWith_of_turns (n := 10) (c := ⟨5, _, ()⟩) rfl (.inr rfl)
  have hapart : reduceAlone 5 (.compose [c.block]) = ⟨.compose [nan, nan, .prim .eq], [], 0, 1, false⟩ :=
    congrArg (Outcome.ofHalt 5) hrun
  have hc : c.block.names = [] := rfl
  have hbytes := reduceBytes_of_ok host (Bytecode.decode_written hc) 5 ()
  have hwire : (reduceBytes host 5 (Bytecode.written c.block) ()).1 =
      .ok ⟨.compose [nan, nan, .prim .eq], [], 0, 1, false⟩ := by
    rw [hbytes]
    exact congrArg Except.ok ((reduce_eq_reduceWith host.nameless_fixed 5 _ _).trans hapart)
  refine ⟨hfaithful, hc, by decide, hmemory, _, Bytecode.encode_of_names_eq_nil hc, hwire, ?_⟩
  rw [hwire, hmemory]
  simp

end BlockCalculus.Reduction
