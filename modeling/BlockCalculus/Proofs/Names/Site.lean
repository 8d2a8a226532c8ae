import BlockCalculus.Proofs.Names.Chronicle

/-! Writing and removing files around a resolver. What has been resolved once, by itself or in
the expansion of another name, stays as it is, and a failure leaves nothing behind. -/

namespace BlockCalculus.Folder

/-- What is done around a resolver, and with it. -/
inductive Doing where
  | write (path : String) (content : Bytes)
  | remove (path : String)
  | resolve (name : String)
  | read (text : String)

/-- The files at hand and the memory of a resolver. -/
structure Site (σ : Type) where
  tree : FileTree
  memory : σ

namespace Site

variable {σ : Type}

def folder (s : Site σ) (root : String) : Folder :=
  Folder.ofPath s.tree root

def act (host : Folder → Host σ) (root : String) (s : Site σ) : Doing → Site σ
  | .write path content => { s with tree := s.tree.write path content }
  | .remove path => { s with tree := s.tree.remove path }
  | .resolve name => { s with memory := ((host (s.folder root)).resolve name s.memory).2 }
  | .read text =>
    { s with
      memory := (Workbench.readWith (host (s.folder root)) (Token.scan text.toList) s.memory).2 }

def run (host : Folder → Host σ) (root : String) (s : Site σ) (doings : List Doing) : Site σ :=
  doings.foldl (act host root) s

/-- The same with the cache only. -/
def plain (s : Site Chronicle) : Site Cache :=
  ⟨s.tree, s.memory.cache⟩

end Site

def notingHost (folder : Folder) : Host Chronicle where
  resolve name c := folder.expandNoting [] name c
  record _ c := c

section Site

variable {old : Cache} (root : String)

theorem notingHost_shadows (folder : Folder) (name : String) :
    Shadows Chronicle.cache (folder.notingHost.resolve name) (folder.host.resolve name) :=
  folder.expandNoting_shadows [] name

theorem plain_act (s : Site Chronicle) (d : Doing) :
    (s.act notingHost root d).plain = s.plain.act host root d := by
  cases d with
  | write path content => rfl
  | remove path => rfl
  | resolve name =>
    have hcache := ((s.folder root).notingHost_shadows name s.memory).2
    exact congrArg (Site.mk s.tree) hcache
  | read text =>
    have hread := Shadows.readWith (s.folder root).notingHost_shadows (Token.scan text.toList)
    exact congrArg (Site.mk s.tree) (hread s.memory).2

theorem plain_run (s : Site Chronicle) (doings : List Doing) :
    (s.run notingHost root doings).plain = s.plain.run host root doings := by
  induction doings generalizing s with
  | nil => rfl
  | cons d rest ih =>
    have hrest := ih (s.act notingHost root d)
    rw [plain_act] at hrest
    exact hrest

theorem act_pending {s : Site Chronicle} (h : s.memory.Pending old []) (d : Doing) :
    (s.act notingHost root d).memory.Pending old [] := by
  have hresolve : ∀ n, Keeps (Chronicle.Pending old []) Block.Writable
      ((s.folder root).notingHost.resolve n) := (s.folder root).expandNoting_keeps []
  cases d with
  | write path content => exact h
  | remove path => exact h
  | resolve name => exact (hresolve name s.memory h).1
  | read text => exact (Keeps.readWith hresolve (Token.scan text.toList) s.memory h).1

theorem run_pending {s : Site Chronicle} (h : s.memory.Pending old []) (doings : List Doing) :
    (s.run notingHost root doings).memory.Pending old [] := by
  induction doings generalizing s with
  | nil => exact h
  | cons d rest ih => exact ih (act_pending root h d)

theorem Chronicle.empty_pending : Chronicle.empty.Pending [] [] where
  valid := List.forall_mem_nil _
  grown := Within.refl []
  absent := List.forall_mem_nil _
  past := List.forall_mem_nil _

theorem Chronicle.Pending.rebase {c : Chronicle} (h : c.Pending old []) {cache : Cache}
    (hc : Within cache c.cache) : c.Pending cache [] where
  valid := h.valid
  grown := hc
  absent := h.absent
  past := h.past

theorem resolve_of_lookup (folder : Folder) {cache : Cache} {n : String} {b : Block}
    (h : cache.lookup n = some b) : folder.resolve n cache = (.ok b, cache) := by
  have honce := folder.expandWith_eq_expandOnce Store.memory.find Store.memory.keep [] n
  have hresolve : folder.resolve n = folder.expandWith Store.memory.find Store.memory.keep [] n := rfl
  rw [hresolve, honce, expandOnce, bind_apply, Store.memory_find]
  dsimp only
  rw [h]
  rfl

/-- Code is read as a block that can be written. -/
theorem writable_of_read (folder : Folder) {tokens : List Token} {b : Block}
    (h : (Workbench.readWith folder.host tokens []).1 = .ok b) : b.Writable := by
  have hshadows := Shadows.readWith folder.notingHost_shadows tokens Chronicle.empty
  have hresolve : ∀ n, Keeps (Chronicle.Pending [] []) Block.Writable (folder.notingHost.resolve n) :=
    folder.expandNoting_keeps []
  have hkeeps := Keeps.readWith hresolve tokens Chronicle.empty Chronicle.empty_pending
  exact hkeeps.2 b (hshadows.1.trans h)

theorem head?_past_act (s : Site Chronicle) (n : String) :
    (s.act notingHost root (.resolve n)).memory.past.head? =
      some ⟨s.folder root, [], n, s.memory.cache, ((s.folder root).resolve n s.memory.cache).1,
        ((s.folder root).resolve n s.memory.cache).2⟩ := by
  obtain ⟨hanswer, hcache⟩ := (s.folder root).expandNoting_shadows [] n s.memory
  have hhead := (s.folder root).head?_past_expandNoting [] n s.memory
  rw [hanswer, hcache] at hhead
  exact hhead

theorem resolve_of_mem_past {s : Site Chronicle} (h : s.memory.Pending old []) {e : Expansion}
    (he : e ∈ s.memory.past) {b : Block} (hb : e.answer = .ok b) (more : List Doing) :
    let later := s.plain.run host root more
    ((later.folder root).resolve e.name later.memory).1 = .ok b := by
  intro later
  obtain ⟨hsettled, hwithin⟩ := h.past e he
  have hlookup := hwithin e.name b (hsettled.kept b hb)
  have hrun := run_pending root (h.rebase (Within.refl s.memory.cache)) more
  have hlater : later.memory.lookup e.name = some b := by
    have hplain : (s.run notingHost root more).plain = later := plain_run root s more
    rw [← hplain]
    exact hrun.grown e.name b hlookup
  rw [resolve_of_lookup _ hlater]

end Site

/-- Around one resolver files are written and removed, names are resolved and texts read. The
chronicle has every expansion, and tells what the resolver really does. -/
theorem resolver_history (tree : FileTree) (root : String) (doings : List Doing) :
    let noted := Site.run notingHost root ⟨tree, .empty⟩ doings
    let s := Site.run host root ⟨tree, []⟩ doings
    noted.plain = s ∧ Valid s.memory ∧
    (∀ n, (noted.act notingHost root (.resolve n)).memory.past.head? =
      some ⟨s.folder root, [], n, s.memory, ((s.folder root).resolve n s.memory).1,
        ((s.folder root).resolve n s.memory).2⟩) ∧
    (∀ n b, ((s.folder root).resolve n s.memory).1 = .ok b → ∀ more,
      let later := s.run host root (.resolve n :: more)
      ((later.folder root).resolve n later.memory).1 = .ok b) ∧
    ∀ e ∈ noted.memory.past, e.Settled ∧ ∀ b, e.answer = .ok b → ∀ more,
      let later := s.run host root more
      ((later.folder root).resolve e.name later.memory).1 = .ok b := by
  intro noted s
  have hplain : noted.plain = s := plain_run root ⟨tree, .empty⟩ doings
  have hpending : noted.memory.Pending [] [] := run_pending root Chronicle.empty_pending doings
  rw [← hplain]
  refine ⟨rfl, hpending.valid, head?_past_act root noted, ?_, ?_⟩
  · intro n b hb more
    have hnoted := act_pending root hpending (.resolve n)
    have hmem := List.mem_of_mem_head? (head?_past_act root noted n)
    have hlater := resolve_of_mem_past root hnoted hmem hb more
    rw [plain_act] at hlater
    exact hlater
  · intro e he
    exact ⟨(hpending.past e he).1, fun b hb more => resolve_of_mem_past root hpending he hb more⟩

/-- A name fails for want of a file, is resolved when the file is there, and stays when the
files are gone or say something else. -/
theorem resolver_history_twice :
    let tree := FileTree.bare ["d"]
    let once : Bytes := [99, 111, 112, 121]
    let twice : Bytes := [111, 110, 99, 101, 32, 111, 110, 99, 101]
    let doings : List Doing := [.write "lib/twice" twice, .resolve "twice", .write "lib/once" once,
      .read "[twice]"]
    let more : List Doing := [.write "lib/once" [49], .remove "lib/twice", .read "once"]
    let noted := Site.run notingHost "lib" ⟨tree, .empty⟩ doings
    let s := Site.run host "lib" ⟨tree, []⟩ doings
    let later := s.run host "lib" more
    let absent := ReadError.missing "once" (.unreadable .notFound)
    noted.memory.past.map (fun e => (e.inFlight, e.name, e.answer)) =
      [([], "twice", .ok (.pair (.prim .copy) (.prim .copy))), (["twice"], "once", .ok (.prim .copy)),
        (["twice"], "once", .ok (.prim .copy)), ([], "twice", .error absent),
        (["twice"], "once", .error absent)] ∧
    ((later.folder "lib").resolve "once" later.memory).1 = .ok (.prim .copy) ∧ Valid s.memory := by
  intro tree once twice doings more noted s later absent
  let first := Folder.ofPath (tree.write "lib/twice" twice) "lib"
  let second := Folder.ofPath ((tree.write "lib/twice" twice).write "lib/once" once) "lib"
  have hfirst : first = ⟨[("twice", twice)], first.fault⟩ :=
    congrArg (Folder.mk · first.fault) (by decide +kernel)
  have hfault : first.fault "once" = .notFound := by decide +kernel
  have hsecond : second = ⟨[("once", once), ("twice", twice)], second.fault⟩ :=
    congrArg (Folder.mk · second.fault) (by decide +kernel)
  have hmissing : (first.expandNoting [] "twice" .empty).2 =
      ⟨[], [⟨first, [], "twice", [], .error absent, []⟩,
        ⟨first, ["twice"], "once", [], .error absent, []⟩]⟩ := by
    have hall (fault : String → FileFault) :
        let folder : Folder := ⟨[("twice", [111, 110, 99, 101, 32, 111, 110, 99, 101])], fault⟩
        let gap := ReadError.missing "once" (.unreadable (fault "once"))
        (folder.expandNoting [] "twice" .empty).2 =
          ⟨[], [⟨folder, [], "twice", [], .error gap, []⟩,
            ⟨folder, ["twice"], "once", [], .error gap, []⟩]⟩ := by
      cbv
    rw [hfirst, hall, ← hfirst, hfault]
  have hpast : noted.memory.past.map (fun e => (e.inFlight, e.name, e.answer)) =
      [([], "twice", .ok (.pair (.prim .copy) (.prim .copy))), (["twice"], "once", .ok (.prim .copy)),
        (["twice"], "once", .ok (.prim .copy)), ([], "twice", .error absent),
        (["twice"], "once", .error absent)] := by
    have hnoted : noted.memory = (Workbench.readWith second.notingHost (Token.scan "[twice]".toList)
        (first.expandNoting [] "twice" .empty).2).2 := rfl
    rw [hnoted, hmissing, hsecond]
    simp only [absent, once, twice]
    cbv
  obtain ⟨-, hvalid, -, -, hexpansions⟩ := resolver_history tree "lib" doings
  have honce : ∃ e ∈ noted.memory.past,
      (e.inFlight, e.name, e.answer) = (["twice"], "once", .ok (.prim .copy)) := by
    apply List.mem_map.mp
    rw [hpast]
    simp
  obtain ⟨e, he, heq⟩ := honce
  simp only [Prod.mk.injEq] at heq
  obtain ⟨-, hname, hanswer⟩ := heq
  exact ⟨hpast, hname ▸ (hexpansions e he).2 _ hanswer more, hvalid⟩

end BlockCalculus.Folder
