import BlockCalculus.CommandLine.Run
import BlockCalculus.Proofs.CommandLine.Arguments
import BlockCalculus.Proofs.Names.Site
import BlockCalculus.Proofs.Reduction.Bytecode

/-! Commands that are given the same code. What one of them writes another one takes, and all of
them stand for the block that is read. -/

namespace BlockCalculus.CommandLine

theorem Memory.cache_record (v : Verbosity) (e : Event) (m : Memory) : (m.record v e).cache = m.cache := by
  unfold Memory.record
  split <;> rfl

theorem Memory.cache_recordAll (v : Verbosity) (es : List Event) (m : Memory) :
    (m.recordAll v es).cache = m.cache := by
  induction es generalizing m with
  | nil => rfl
  | cons e rest ih => exact (ih (m.record v e)).trans (m.cache_record v e)

def Memory.store (v : Verbosity) : Folder.Store (StateM Memory) where
  find name := do return (← get).cache.lookup name
  keep name b := modify fun m => { m.record v (.loaded name) with cache := (name, b) :: m.cache }
  clear := modify fun m => { m with cache := [] }

theorem Memory.store_shadows (v : Verbosity) :
    Folder.Store.Shadows Memory.cache (Memory.store v) Folder.Store.memory where
  find _ _ := ⟨rfl, rfl⟩
  keep _ _ _ := ⟨rfl, rfl⟩

theorem folderHost_shadows (v : Verbosity) (folder : Folder) (name : String) :
    Shadows Memory.cache ((folderHost v folder).resolve name) (folder.host.resolve name) :=
  Folder.expandWith_shadows (Memory.store_shadows v) folder [] name

namespace Surroundings

def Loads (s : Surroundings) (settings : Settings) : Prop :=
  (Settings.load s.tree none (Settings.searchPaths s.tree.cwdText s.env)).2 = .ok settings

theorem loads_default {s : Surroundings}
    (h : (Settings.searchPaths s.tree.cwdText s.env).find? s.tree.isFile = none) : s.Loads {} := by
  rw [Loads, Settings.load, Settings.loadFirst, h]

def folder (s : Surroundings) (settings : Settings) : Folder :=
  Folder.ofPath s.tree (settings.resolverRoot s.tree.cwdText)

/-- The block that code stands for. -/
def read (s : Surroundings) (settings : Settings) (code : String) : Except ReadError Block :=
  (Workbench.readWith (s.folder settings).host (Token.scan code.toList) []).1

end Surroundings

namespace Answer

def Prints (a : Answer) (bytes : Bytes) : Prop :=
  a.code = 0 ∧ a.stdout = bytes

def Fails (a : Answer) : Prop :=
  a.code = 1 ∧ a.stdout = []

end Answer

variable {s : Surroundings} {settings : Settings} {code : String} {args : List String} {a : Action}

theorem run_of_parse (hp : parse args = .ok (.plain a)) (hs : s.Loads settings) :
    ∃ m : Memory, m.cache = [] ∧ run s args = answer (perform .normal s settings m a).1
      (perform .normal s settings m a).2 := by
  let loaded := Settings.load s.tree none (Settings.searchPaths s.tree.cwdText s.env)
  let m := (Memory.empty.record .normal .starting).recordAll .normal loaded.1
  have hcache : m.cache = [] := by
    rw [Memory.cache_recordAll, Memory.cache_record]
    rfl
  have hprepare : prepare s.tree s.env (.plain a) = (.ok settings, m) := Prod.ext hs rfl
  refine ⟨m, hcache, ?_⟩
  rw [run, hp]
  dsimp only
  rw [serve, hprepare]
  rfl

theorem run_prints {bytes : Bytes} (hp : parse args = .ok (.plain a)) (hs : s.Loads settings)
    (h : ∀ m : Memory, m.cache = [] → (perform .normal s settings m a).1 = (bytes, none)) :
    (run s args).Prints bytes := by
  obtain ⟨m, hm, hrun⟩ := run_of_parse hp hs
  rw [hrun, h m hm]
  exact ⟨rfl, rfl⟩

theorem run_fails (hp : parse args = .ok (.plain a)) (hs : s.Loads settings)
    (h : ∀ m : Memory, m.cache = [] → ∃ context causes,
      (perform .normal s settings m a).1 = failed context causes) : (run s args).Fails := by
  obtain ⟨m, hm, hrun⟩ := run_of_parse hp hs
  obtain ⟨context, causes, hfailed⟩ := h m hm
  rw [hrun, hfailed]
  exact ⟨rfl, rfl⟩

theorem withCode_read (next : Block → Outcome) {m : Memory} (hm : m.cache = []) :
    (withCode (settingsHost .normal s.tree settings) code next m).1 =
      match s.read settings code with
      | .ok b => next b
      | .error e => failed "Failed to read code" [e.message] := by
  have hshadows := Shadows.readWith (folderHost_shadows .normal (s.folder settings))
    (Token.scan code.toList) m
  have hread : (Workbench.readWith (settingsHost .normal s.tree settings) (Token.scan code.toList) m).1 =
      s.read settings code := by
    rw [Surroundings.read, ← hm]
    exact hshadows.1
  rw [withCode, ← hread]
  cases Workbench.readWith (settingsHost .normal s.tree settings) (Token.scan code.toList) m with
  | mk r m' => cases r <;> rfl

theorem encodeOut_written {b : Block} (hb : b.names = []) (hex : Bool) :
    encodeOut hex b = if hex then lineOut (Bytecode.written b).hex else (Bytecode.written b, none) := by
  rw [encodeOut, Bytecode.encode_of_names_eq_nil hb]

theorem hashOut_written {b : Block} (hb : b.names = []) :
    hashOut b = lineOut ("#" ++ (Sha256.digest (Bytecode.written b)).hex) := by
  rw [hashOut, Bytecode.addressOf_eq_ok_iff.mpr ⟨hb, rfl⟩]

theorem runDecode_written {b : Block} (hb : b.Writable) (host : Host Memory) (m : Memory) :
    (runDecode host (Bytecode.written b) m).1 = lineOut b.render := by
  rw [runDecode, Reduction.decode, Bytecode.decode_written_of_isNormal hb.1 hb.2]

theorem writeBlock_written {b : Block} (hb : b.names = []) :
    writeBlock .bytes b = (Bytecode.written b, none) := by
  simp only [writeBlock, Bytecode.encode_of_names_eq_nil hb]

theorem runReduce_written {b : Block} (hb : b.Writable) (host : Host Memory) (quota : Nat)
    (format : Format) (m : Memory) :
    (runReduce .normal host (Bytecode.written b) quota format false m).1 =
      writeBlock format (Reduction.reduceAlone quota b).block := by
  have hdecode := Bytecode.decode_written_of_isNormal hb.1 hb.2
  have hrun := Reduction.reduceBytes_of_ok host hdecode quota m
  have hsame := Reduction.reduce_eq_reduceWith host.nameless_fixed quota b
    (host.record (.decoding (Bytecode.written b).length) m)
  rw [runReduce, hrun, Reduction.reduceAlone, ← hsame]

theorem reduceAlone_writable {b : Block} (hb : b.Writable) (quota : Nat) :
    (Reduction.reduceAlone quota b).block.Writable :=
  ⟨Cell.isNormal_compose _, Reduction.names_reduce (Host.ofAnswers_fixed _) hb.2 quota ()⟩

theorem encode_prints (hs : s.Loads settings) {operand : List String} (ho : Hands code operand)
    {b : Block} (hb : s.read settings code = .ok b) (hn : b.names = []) :
    (run s ("encode" :: operand)).Prints (Bytecode.written b) ∧
      (run s ("encode" :: "--hex" :: operand)).Prints
        (bytesOf ((Bytecode.written b).hex ++ "\n")) := by
  refine ⟨run_prints (parse_encode ho) hs fun m hm => ?_,
    run_prints (parse_encode_hex ho) hs fun m hm => ?_⟩
  · rw [perform, perform.host, withCode_read _ hm, hb]
    exact encodeOut_written hn false
  · rw [perform, perform.host, withCode_read _ hm, hb]
    exact encodeOut_written hn true

theorem hash_prints (hs : s.Loads settings) {operand : List String} (ho : Hands code operand)
    {b : Block} (hb : s.read settings code = .ok b) (hn : b.names = []) :
    (run s ("hash" :: operand)).Prints
      (bytesOf ("#" ++ (Sha256.digest (Bytecode.written b)).hex ++ "\n")) := by
  refine run_prints (parse_hash ho) hs fun m hm => ?_
  rw [perform, perform.host, withCode_read _ hm, hb]
  exact hashOut_written hn

theorem decode_prints (hs : s.Loads settings) {b : Block} (hb : b.Writable)
    (hstdin : s.stdin = Bytecode.written b) :
    (run s ["decode"]).Prints (bytesOf (b.render ++ "\n")) := by
  refine run_prints parse_decode hs fun m _ => ?_
  rw [perform, readInput, hstdin]
  exact runDecode_written hb _ m

theorem reduce_prints (hs : s.Loads settings) {b : Block} (hb : b.Writable)
    (hstdin : s.stdin = Bytecode.written b) {n : Nat} (hn : n < 2 ^ 64) :
    (run s ["reduce", "-q", toString n, "-o", "text"]).Prints
        (bytesOf ((Reduction.reduceAlone n b).block.render ++ "\n")) ∧
      (run s ["reduce", "-q", toString n]).Prints
        (Bytecode.written (Reduction.reduceAlone n b).block) := by
  have hresult := reduceAlone_writable hb n
  refine ⟨run_prints (parse_reduce_text hn) hs fun m _ => ?_,
    run_prints (parse_reduce hn) hs fun m _ => ?_⟩
  · rw [perform, readInput, hstdin]
    exact runReduce_written hb _ n .text m
  · rw [perform, readInput, hstdin]
    exact (runReduce_written hb _ n .bytes m).trans (writeBlock_written hresult.2)

theorem code_fails (hs : s.Loads settings) {operand : List String} (ho : Hands code operand)
    {e : ReadError} (he : s.read settings code = .error e) :
    (run s ("encode" :: operand)).Fails ∧ (run s ("hash" :: operand)).Fails := by
  refine ⟨run_fails (parse_encode ho) hs fun m hm => ?_, run_fails (parse_hash ho) hs fun m hm => ?_⟩
  · rw [perform, perform.host, withCode_read _ hm, he]
    exact ⟨_, _, rfl⟩
  · rw [perform, perform.host, withCode_read _ hm, he]
    exact ⟨_, _, rfl⟩

/-- All commands that are handed code, or the bytes written for it, stand for the block that the
code is read as. -/
theorem commands_agree (hs : s.Loads settings) {operand : List String} (ho : Hands code operand) :
    (∀ b, s.read settings code = .ok b → ∃ bytes, Bytecode.encode b = .ok bytes ∧
      (run s ("encode" :: operand)).Prints bytes ∧
      (run s ("encode" :: "--hex" :: operand)).Prints (bytesOf (bytes.hex ++ "\n")) ∧
      (run s ("hash" :: operand)).Prints (bytesOf ("#" ++ (Sha256.digest bytes).hex ++ "\n")) ∧
      let fed : Surroundings := { s with stdin := bytes }
      (run fed ["decode"]).Prints (bytesOf (b.render ++ "\n")) ∧
      ∀ n < 2 ^ 64,
        (run fed ["reduce", "-q", toString n, "-o", "text"]).Prints
          (bytesOf ((Reduction.reduceAlone n b).block.render ++ "\n")) ∧
        ∃ result, (run fed ["reduce", "-q", toString n]).Prints result ∧
          Bytecode.decode result = .ok (Reduction.reduceAlone n b).block) ∧
    ∀ e, s.read settings code = .error e →
      (run s ("encode" :: operand)).Fails ∧ (run s ("hash" :: operand)).Fails := by
  refine ⟨fun b hb => ?_, fun e he => code_fails hs ho he⟩
  have hwritable : b.Writable := Folder.writable_of_read _ hb
  obtain ⟨hbytes, hhex⟩ := encode_prints hs ho hb hwritable.2
  refine ⟨Bytecode.written b, Bytecode.encode_of_names_eq_nil hwritable.2, hbytes, hhex,
    hash_prints hs ho hb hwritable.2, ?_⟩
  intro fed
  have hfed : fed.Loads settings := hs
  refine ⟨decode_prints hfed hwritable rfl, fun n hn => ?_⟩
  obtain ⟨htext, hresult⟩ := reduce_prints hfed hwritable rfl hn
  have hnormal := reduceAlone_writable hwritable n
  exact ⟨htext, _, hresult, Bytecode.decode_written_of_isNormal hnormal.1 hnormal.2⟩

/-- A number below zero behind two dashes, and a quotation that nothing closes. -/
theorem commands_agree_minus :
    let s : Surroundings := ⟨FileTree.bare ["d"], {}, []⟩
    let minus : Block := .num ⟨0xC014000000000000⟩
    let bytes : Bytes := [0x0F, 0xC0, 0x14, 0, 0, 0, 0, 0, 0]
    s.Loads {} ∧ Hands "-5" ["--", "-5"] ∧ Hands "[" ["["] ∧
      (run s ["encode", "--", "-5"]).Prints bytes ∧
      (run { s with stdin := bytes } ["reduce", "-q", toString 7, "-o", "text"]).Prints
        (bytesOf ((Reduction.reduceAlone 7 minus).block.render ++ "\n")) ∧
      (run s ["hash", "["]).Fails := by
  intro s minus bytes
  have hs : s.Loads {} := Surroundings.loads_default (by decide +kernel)
  have hminus : Hands "-5" ["--", "-5"] := .dashes
  have hopen : Hands "[" ["["] := .plain (by decide)
  have hread : s.read {} "-5" = .ok minus := by decide +kernel
  have hunclosed : s.read {} "[" = .error .unbalanced := by decide +kernel
  obtain ⟨written, hwritten, hencode, -, -, -, hreduce⟩ := (commands_agree hs hminus).1 minus hread
  have hbytes : Bytecode.encode minus = .ok bytes := by decide +kernel
  obtain rfl : written = bytes := Except.ok.inj (hwritten.symm.trans hbytes)
  exact ⟨hs, hminus, hopen, hencode, (hreduce 7 (by decide)).1,
    ((commands_agree hs hopen).2 .unbalanced hunclosed).2⟩

/-- As it is, a number below zero looks like a switch and is not taken as code. -/
theorem encode_minus_refused :
    let s : Surroundings := ⟨FileTree.bare ["d"], {}, []⟩
    let minus : Block := .num ⟨0xC014000000000000⟩
    let bytes : Bytes := [0x0F, 0xC0, 0x14, 0, 0, 0, 0, 0, 0]
    s.Loads {} ∧ s.read {} "-5" = .ok minus ∧ Bytecode.encode minus = .ok bytes ∧
      (run s ["encode", "-5"]).code = 2 ∧ ¬ (run s ["encode", "-5"]).Prints bytes := by
  intro s minus bytes
  have hs : s.Loads {} := Surroundings.loads_default (by decide +kernel)
  have hcode : (run s ["encode", "-5"]).code = 2 := by decide +kernel
  refine ⟨hs, by decide +kernel, by decide +kernel, hcode, fun h => ?_⟩
  have hzero := h.1
  rw [hcode] at hzero
  cases hzero

end BlockCalculus.CommandLine
