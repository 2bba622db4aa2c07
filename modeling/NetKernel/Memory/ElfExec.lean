import NetKernel.Memory.ElfLoad

/-! `ELF::exec`: the file is loaded and the stack laid out that its entry point starts on. -/
namespace NetKernel.ElfExec
open Blocks (BlockIo)
open ElfLoad
open FilePages (fileByte)
open Frames (Ram)
open ProgramBreak (brkLimit userStackTop userStackSize)
open UserMemory

abbrev atNull : UInt64 := 0
abbrev atPhdr : UInt64 := 3
abbrev atPhent : UInt64 := 4
abbrev atPhnum : UInt64 := 5
abbrev atPagesz : UInt64 := 6
abbrev atBase : UInt64 := 7
abbrev atEntry : UInt64 := 9
abbrev atUid : UInt64 := 11
abbrev atEuid : UInt64 := 12
abbrev atGid : UInt64 := 13
abbrev atEgid : UInt64 := 14
abbrev atSecure : UInt64 := 23
abbrev atRandom : UInt64 := 25

structure AuxPair where
  tag : UInt64
  value : UInt64
deriving DecidableEq, Repr

def covers (hdr : ElfHeader) (seg : ProgramHeader) : Bool :=
  seg.type == 1 && seg.offset ≤ hdr.phoff && hdr.phoff < seg.offset+seg.filesz

/-- The loop of `find_program_headers_va` with `n` headers to go; `read` takes 32 bits of `hoff`. -/
def searchHeaders (d : BlockIo) (hdr : ElfHeader) : Nat → UInt64 → Option UInt64
  | 0, _ => some 0
  | n+1, hoff =>
    (readProgramHeader d (hoff.toNat % 2^32)).bind fun phdr =>
      if covers hdr phdr then some (phdr.vaddr+(hdr.phoff-phdr.offset))
      else searchHeaders d hdr n (hoff+hdr.phentsize.toUInt64)

def findProgramHeadersVa (d : BlockIo) (hdr : ElfHeader) : Option UInt64 :=
  searchHeaders d hdr hdr.phnum.toNat hdr.phoff

/-- `"init"`, at the top of the stack. -/
def arg0 : List UInt8 := [105, 110, 105, 116, 0]

abbrev arg0Addr : Nat := userStackTop-5
abbrev randomAddr : Nat := arg0Addr-16

def auxv (hdr : ElfHeader) (phdr entry : UInt64) : List AuxPair :=
  [⟨atPhdr, phdr⟩, ⟨atPhent, hdr.phentsize.toUInt64⟩, ⟨atPhnum, hdr.phnum.toUInt64⟩,
    ⟨atPagesz, 4096⟩, ⟨atBase, 0⟩, ⟨atEntry, entry⟩, ⟨atUid, 0⟩, ⟨atEuid, 0⟩, ⟨atGid, 0⟩,
    ⟨atEgid, 0⟩, ⟨atSecure, 0⟩, ⟨atRandom, .ofNat randomAddr⟩, ⟨atNull, 0⟩]

def wordBytes (value : UInt64) : List UInt8 := digits value.toNat 8

def pushU64 (root : Nat) (s : Ram × Nat) (value : UInt64) : Option (Ram × Nat) :=
  (storeBytes root s.1 (s.2-8) (wordBytes value)).map (·, s.2-8)

/-- What is pushed, from the first: `auxv` from its end, then `envp`, `argv` and `argc`. -/
def pushes (hdr : ElfHeader) (phdr entry : UInt64) : List UInt64 :=
  (auxv hdr phdr entry).reverse.flatMap (fun p => [p.value, p.tag]) ++ [0, 0, .ofNat arg0Addr, 1]

/-- `build_initial_stack`: the stack pointer, and memory afterwards. -/
def buildInitialStack (d : BlockIo) (hdr : ElfHeader) (entry : UInt64) (root : Nat) (ram : Ram) :
    Option (Nat × Ram) :=
  (storeBytes root ram arg0Addr arg0).bind fun ram =>
    (zeroUserRange root ram randomAddr 16).bind fun ram =>
      (findProgramHeadersVa d hdr).bind fun phdr =>
        ((pushes hdr phdr entry).foldlM (pushU64 root) (ram, randomAddr / 16*16)).map Prod.swap

/-- `ELF::exec` up to `switch_to_user`: its two arguments, `min_brk` and the thread. -/
def exec (d : BlockIo) (root : Nat) (s : Loading) : Option (UInt64 × Nat × Nat × Loading) :=
  (readElfHeader d).bind fun hdr =>
    (load d root s).bind fun (entry, minBrk, t) =>
      (buildInitialStack d hdr entry root t.ram).map fun (rsp, ram) =>
        (entry, rsp, minBrk, { t with ram := ram })

/-! What the entry point finds. -/

/-- The user reads `xs` from `va` up. -/
def Holds (root : Nat) (ram : Ram) (va : Nat) (xs : List UInt8) : Prop :=
  ∀ i x, xs[i]? = some x → userByte root ram (va+i) = some x.toNat

/-- The words from the stack pointer up: `argc`, `argv`, `envp` and `auxv`. -/
def startWords (hdr : ElfHeader) (phdr entry : UInt64) : List UInt64 :=
  [1, .ofNat arg0Addr, 0, 0] ++ (auxv hdr phdr entry).flatMap fun p => [p.tag, p.value]

/-- `AT_PHDR` is 0 or the address of the program headers in the image. -/
def ProgramHeadersAt (d : BlockIo) (segs : List ProgramHeader) (hdr : ElfHeader) (root : Nat)
    (ram : Ram) (va : UInt64) : Prop :=
  (∀ seg ∈ segs, covers hdr seg = false) ∧ va = 0 ∨
    ∃ seg ∈ segs, covers hdr seg = true ∧
      va.toNat+seg.offset.toNat = seg.vaddr.toNat+hdr.phoff.toNat ∧
      (Image d segs root ram → ∀ i, hdr.phoff.toNat+i < seg.offset.toNat+seg.filesz.toNat →
        userByte root ram (va.toNat+i) = some (fileByte d (hdr.phoff.toNat+i)).toNat)

structure Starts (d : BlockIo) (segs : List ProgramHeader) (hdr : ElfHeader) (root : Nat)
    (ram : Ram) (rsp : Nat) (phdr : UInt64) : Prop where
  aligned : rsp % 16 = 0
  words : Holds root ram rsp ((startWords hdr phdr hdr.entry).flatMap wordBytes)
  arg0 : Holds root ram arg0Addr arg0
  random : Holds root ram randomAddr (List.replicate 16 0)
  phdr : ProgramHeadersAt d segs hdr root ram phdr
  image : Image d segs root ram ↔ segs.Pairwise (Spares d)

variable {d : BlockIo} {hdr : ElfHeader} {segs : List ProgramHeader} {root va lo hi : Nat}
  {ram ram' : Ram} {stock : List Nat} {xs ys : List UInt8} {values : List UInt64}

/-! Bytes in place. -/

theorem Holds.append (hx : Holds root ram va xs) (hy : Holds root ram (va+xs.length) ys) :
    Holds root ram va (xs ++ ys) := by
  intro i x hi
  by_cases hlt : i < xs.length
  · rw [List.getElem?_append_left hlt] at hi
    exact hx i x hi
  · rw [List.getElem?_append_right (by omega)] at hi
    have hy := hy _ x hi
    rwa [Nat.add_assoc, Nat.add_sub_cancel' (by omega)] at hy

theorem Holds.left (h : Holds root ram va (xs ++ ys)) : Holds root ram va xs := fun i x hi =>
  h i x ((List.getElem?_append_left (List.getElem?_eq_some_iff.mp hi).1).trans hi)

theorem Holds.congr (h : Holds root ram va xs)
    (hsame : ∀ a, va ≤ a → a < va+xs.length → userByte root ram' a = userByte root ram a) :
    Holds root ram' va xs := by
  intro i x hi
  have hlt := (List.getElem?_eq_some_iff.mp hi).1
  rw [hsame _ (by omega) (by omega)]
  exact h i x hi

/-- What stores between two addresses leave alone. -/
structure Within (root : Nat) (ram ram' : Ram) (lo hi : Nat) : Prop where
  rest : ∀ a < 2^47, a < lo ∨ hi ≤ a → userByte root ram' a = userByte root ram a
  mapped : ∀ a < 2^47, (userByte root ram a).isSome → (userByte root ram' a).isSome

theorem Within.trans {ram'' : Ram} {mid : Nat} (h : Within root ram ram' mid hi)
    (h' : Within root ram' ram'' lo mid) (hlo : lo ≤ mid) (hhi : mid ≤ hi) :
    Within root ram ram'' lo hi :=
  ⟨fun a ha hout => (h'.rest a ha (by omega)).trans (h.rest a ha (by omega)),
    fun a ha hm => h'.mapped a ha (h.mapped a ha hm)⟩

theorem holds_store (h : UserSpace root (ram, stock)) (hva : va+xs.length ≤ 2^47)
    (hs : storeBytes root ram va xs = some ram') :
    UserSpace root (ram', stock) ∧ Holds root ram' va xs ∧
      Within root ram ram' va (va+xs.length) := by
  obtain ⟨h',hbytes⟩ := h.storeBytes hva hs
  refine ⟨h', fun i x hi => ?_, fun a ha hout => ?_, fun a ha hm => ?_⟩
  · have hlt := (List.getElem?_eq_some_iff.mp hi).1
    rw [hbytes _ (by omega), if_pos (by omega), Nat.add_sub_cancel_left, hi, Option.getD_some]
  · rw [hbytes a ha, if_neg (by omega)]
  · rw [hbytes a ha]
    split
    · rfl
    · exact hm

theorem length_wordBytes (value : UInt64) : (wordBytes value).length = 8 := by
  rw [wordBytes, digits, List.length_map, List.length_range]

theorem length_words : (values.flatMap wordBytes).length = 8*values.length := by
  induction values with
  | nil => rfl
  | cons value values ih =>
    rw [List.flatMap_cons, List.length_append, ih, length_wordBytes, List.length_cons]
    omega

/-! The pushes. -/

variable {cursor cursor' : Nat}

theorem pushed (h : UserSpace root (ram, stock)) (hroom : 8*values.length ≤ cursor)
    (hb : cursor ≤ 2^47) (hs : values.foldlM (pushU64 root) (ram, cursor) = some (ram', cursor')) :
    UserSpace root (ram', stock) ∧ cursor' = cursor-8*values.length ∧
      Holds root ram' cursor' (values.reverse.flatMap wordBytes) ∧
      Within root ram ram' cursor' cursor := by
  induction values generalizing ram cursor with
  | nil =>
    cases hs
    exact ⟨h, rfl, fun _ _ hi => (by cases hi), fun _ _ _ => rfl, fun _ _ hm => hm⟩
  | cons value values ih =>
    rw [List.length_cons] at hroom ⊢
    rw [List.foldlM_cons] at hs
    obtain ⟨⟨ram₁,c₁⟩,hpush,hs⟩ := Option.bind_eq_some_iff.mp hs
    obtain ⟨ram₂,hstore,heq⟩ := Option.map_eq_some_iff.mp hpush
    cases heq
    have hlen := length_wordBytes value
    obtain ⟨h₁,hword,hwithin⟩ := holds_store h (by rw [hlen]; omega) hstore
    have hend : cursor-8+(wordBytes value).length = cursor := by omega
    rw [hend] at hwithin
    obtain ⟨h',hc,hrest,hwithin'⟩ := ih h₁ (by omega) (by omega) hs
    refine ⟨h', by omega, ?_, hwithin.trans hwithin' (by omega) (by omega)⟩
    rw [List.reverse_cons, List.flatMap_append]
    refine hrest.append ?_
    rw [List.flatMap_singleton, length_words, List.length_reverse]
    have hplace : cursor'+8*values.length = cursor-8 := by omega
    rw [hplace]
    exact hword.congr fun a hge hlt => hwithin'.rest a (by omega) (.inr hge)

theorem pushed_isSome (h : UserSpace root (ram, stock)) (hroom : 8*values.length ≤ cursor)
    (hb : cursor ≤ 2^47)
    (hmapped : ∀ a, cursor-8*values.length ≤ a → a < cursor → (userByte root ram a).isSome) :
    ∃ r, values.foldlM (pushU64 root) (ram, cursor) = some r := by
  induction values generalizing ram cursor with
  | nil => exact ⟨_, rfl⟩
  | cons value values ih =>
    rw [List.length_cons] at hroom hmapped
    have hlen := length_wordBytes value
    have hstores : ∃ ram₁, storeBytes root ram (cursor-8) (wordBytes value) = some ram₁ :=
      h.storeBytes_isSome (by omega) fun a hge hlt => hmapped a (by omega) (by omega)
    obtain ⟨ram₁,hstore⟩ := hstores
    obtain ⟨h₁,-,hwithin⟩ := holds_store h (by rw [hlen]; omega) hstore
    have hleft : ∀ a, cursor-8-8*values.length ≤ a → a < cursor-8 →
        (userByte root ram₁ a).isSome := fun a hge hlt =>
      hwithin.mapped a (by omega) (hmapped a (by omega) (by omega))
    obtain ⟨r,hr⟩ := ih h₁ (by omega) (by omega) hleft
    refine ⟨r, ?_⟩
    rw [List.foldlM_cons, pushU64, hstore]
    exact hr

/-! The program headers. -/

/-- The address that the first segment with the program headers gives them, or 0. -/
def headersVa (segs : List ProgramHeader) (hdr : ElfHeader) : UInt64 :=
  ((segs.find? (covers hdr)).map fun seg => seg.vaddr+(hdr.phoff-seg.offset)).getD 0

theorem searchHeaders_eq {n : Nat} {hoff : UInt64}
    (hsegs : programHeaders d hdr.phentsize.toNat n (hoff.toNat % 2^32) = some segs) :
    searchHeaders d hdr n hoff = some (headersVa segs hdr) := by
  induction n generalizing hoff segs with
  | zero =>
    cases hsegs
    rfl
  | succ n ih =>
    obtain ⟨phdr,hread,hsegs⟩ := Option.bind_eq_some_iff.mp hsegs
    obtain ⟨rest,hrest,rfl⟩ := Option.map_eq_some_iff.mp hsegs
    have hnext : (hoff.toNat % 2^32+hdr.phentsize.toNat) % 2^32 =
        (hoff+hdr.phentsize.toUInt64).toNat % 2^32 := by
      rw [UInt64.toNat_add, UInt16.toNat_toUInt64]
      omega
    rw [hnext] at hrest
    rw [searchHeaders, hread, Option.bind_some]
    by_cases hc : covers hdr phdr = true
    · rw [if_pos hc, headersVa, List.find?_cons_of_pos hc]
      rfl
    · rw [if_neg hc, headersVa, List.find?_cons_of_neg hc]
      exact ih hrest

theorem programHeadersAt (hf : ∀ seg ∈ segs, seg.type = 1 → Fits d seg) :
    ProgramHeadersAt d segs hdr root ram (headersVa segs hdr) := by
  rw [headersVa]
  cases hfind : segs.find? (covers hdr) with
  | none =>
    refine .inl ⟨fun seg hm => ?_, rfl⟩
    exact Bool.eq_false_iff.mpr (List.find?_eq_none.mp hfind seg hm)
  | some seg =>
    have hm := List.mem_of_find?_eq_some hfind
    have hc := List.find?_some hfind
    have hcover := hc
    simp only [covers, Bool.and_eq_true, beq_iff_eq, decide_eq_true_eq] at hcover
    obtain ⟨⟨ht,hlo⟩,hhi⟩ := hcover
    have hfit := hf seg hm ht
    have hsize := d.size_lt
    have hinside := hfit.inside
    have hlow := hfit.low
    have hfilesz : seg.filesz.toNat ≤ seg.memsz.toNat := hfit.filesz
    have hlimit : brkLimit ≤ 2^47 := by decide
    have hlo : seg.offset.toNat ≤ hdr.phoff.toNat := hlo
    have hhi : hdr.phoff.toNat < (seg.offset+seg.filesz).toNat := hhi
    rw [UInt64.toNat_add, Nat.mod_eq_of_lt (by omega)] at hhi
    have hva : (seg.vaddr+(hdr.phoff-seg.offset)).toNat =
        seg.vaddr.toNat+(hdr.phoff.toNat-seg.offset.toNat) := by
      rw [UInt64.toNat_add, UInt64.toNat_sub_of_le _ _ hlo, Nat.mod_eq_of_lt (by omega)]
    refine .inr ⟨seg, hm, hc, ?_, fun himage i hi => ?_⟩
    · rw [Option.map_some, Option.getD_some, hva]
      omega
    · have hbyte := himage seg hm ht (hdr.phoff.toNat-seg.offset.toNat+i) (by omega)
      rw [imageByte, if_pos (by omega)] at hbyte
      have hplace : seg.offset.toNat+(hdr.phoff.toNat-seg.offset.toNat+i) = hdr.phoff.toNat+i := by
        omega
      rw [hplace, ← Nat.add_assoc, ← hva] at hbyte
      exact hbyte

/-! The stack. -/

variable {s t : Loading} {entry phdr : UInt64} {minBrk rsp : Nat}

theorem load_stack (hsegs : segments d = some segs)
    (hf : ∀ seg ∈ segs, seg.type = 1 → Fits d seg) (h : UserSpace root (s.ram, s.stock))
    (hload : load d root s = some (entry, minBrk, t)) : UserSpace root (t.ram, t.stock) ∧
      ∀ a, brkLimit ≤ a → a < userStackTop → userByte root t.ram a = some 0 := by
  obtain ⟨s₁,ram,stock,hs₁,hmap,hzero,rfl⟩ := load_some hsegs hload
  have hstack : brkLimit+userStackSize ≤ 2^47 := by decide
  obtain ⟨h₁,-⟩ := loadSegments_paint h hf hs₁
  obtain ⟨h₂,-⟩ := h₁.mapUserRange hstack hmap
  obtain ⟨h₃,hcleared⟩ := UserSpace.zeroUserRange h₂ hstack hzero
  have htop : brkLimit+userStackSize = userStackTop := by decide
  refine ⟨h₃, fun a hge hlt => ?_⟩
  rw [hcleared a (by omega), if_pos (by omega)]

theorem pushes_reverse : (pushes hdr phdr entry).reverse = startWords hdr phdr entry := rfl

/-- The stack that `build_initial_stack` leaves, with `words` from its pointer up. -/
structure Built (root : Nat) (ram ram' : Ram) (rsp : Nat) (words : List UInt64) : Prop where
  pointer : rsp = randomAddr / 16*16-240
  words : Holds root ram' rsp (words.flatMap wordBytes)
  arg0 : Holds root ram' arg0Addr arg0
  random : Holds root ram' randomAddr (List.replicate 16 0)
  rest : ∀ a < brkLimit, userByte root ram' a = userByte root ram a

theorem stack_bounds : arg0Addr+5 = userStackTop ∧ randomAddr+16 = arg0Addr ∧
    randomAddr / 16*16 ≤ randomAddr ∧ brkLimit+240 ≤ randomAddr / 16*16 ∧
    userStackTop ≤ 2^47 ∧ (randomAddr / 16*16-240) % 16 = 0 := by decide

theorem buildInitialStack_built (h : UserSpace root (ram, stock))
    (hphdr : findProgramHeadersVa d hdr = some phdr)
    (hs : buildInitialStack d hdr entry root ram = some (rsp, ram')) :
    Built root ram ram' rsp (startWords hdr phdr entry) := by
  obtain ⟨harg,hrandom,hcursor,hroom,htop,-⟩ := stack_bounds
  obtain ⟨ram₁,hs₁,hs⟩ := Option.bind_eq_some_iff.mp hs
  obtain ⟨ram₂,hs₂,hs⟩ := Option.bind_eq_some_iff.mp hs
  rw [hphdr, Option.bind_some] at hs
  obtain ⟨⟨ram₃,c⟩,hs₃,heq⟩ := Option.map_eq_some_iff.mp hs
  cases heq
  have hlen₁ : arg0.length = 5 := rfl
  have hlen₂ : (List.replicate 16 (0 : UInt8)).length = 16 := rfl
  have hlen₃ : 8*(pushes hdr phdr entry).length = 240 := rfl
  obtain ⟨h₁,harg0,hwithin₁⟩ := holds_store h (by omega) hs₁
  obtain ⟨h₂,hzeros,hwithin₂⟩ := holds_store h₁ (by omega) hs₂
  obtain ⟨-,hc,hwords,hwithin₃⟩ := pushed h₂ (by omega) (by omega) hs₃
  rw [pushes_reverse] at hwords
  rw [hlen₃] at hc
  rw [hlen₁] at hwithin₁
  rw [hlen₂] at hwithin₂
  refine ⟨hc, hwords, harg0.congr fun a hge hlt => ?_, hzeros.congr fun a hge hlt => ?_,
    fun a ha => ?_⟩
  · rw [hwithin₃.rest a (by omega) (by omega), hwithin₂.rest a (by omega) (by omega)]
  · exact hwithin₃.rest a (by omega) (by omega)
  · rw [hwithin₃.rest a (by omega) (by omega), hwithin₂.rest a (by omega) (by omega),
      hwithin₁.rest a (by omega) (by omega)]

theorem buildInitialStack_isSome (h : UserSpace root (ram, stock))
    (hphdr : findProgramHeadersVa d hdr = some phdr)
    (hmapped : ∀ a, brkLimit ≤ a → a < userStackTop → (userByte root ram a).isSome) :
    ∃ r, buildInitialStack d hdr entry root ram = some r := by
  obtain ⟨harg,hrandom,hcursor,hroom,htop,-⟩ := stack_bounds
  have hlen₁ : arg0.length = 5 := rfl
  have hlen₂ : (List.replicate 16 (0 : UInt8)).length = 16 := rfl
  have hlen₃ : 8*(pushes hdr phdr entry).length = 240 := rfl
  have hstores₁ : ∃ ram₁, storeBytes root ram arg0Addr arg0 = some ram₁ :=
    h.storeBytes_isSome (by omega) fun a hge hlt => hmapped a (by omega) (by omega)
  obtain ⟨ram₁,hs₁⟩ := hstores₁
  obtain ⟨h₁,-,hwithin₁⟩ := holds_store h (by omega) hs₁
  have hstores₂ : ∃ ram₂, zeroUserRange root ram₁ randomAddr 16 = some ram₂ :=
    h₁.storeBytes_isSome (by omega) fun a hge hlt =>
      hwithin₁.mapped a (by omega) (hmapped a (by omega) (by omega))
  obtain ⟨ram₂,hs₂⟩ := hstores₂
  obtain ⟨h₂,-,hwithin₂⟩ := holds_store h₁ (by omega) hs₂
  have hpushes : ∃ r, (pushes hdr phdr entry).foldlM (pushU64 root)
      (ram₂, randomAddr / 16*16) = some r :=
    pushed_isSome h₂ (by omega) (by omega) fun a hge hlt => hwithin₂.mapped a (by omega)
      (hwithin₁.mapped a (by omega) (hmapped a (by omega) (by omega)))
  obtain ⟨r,hr⟩ := hpushes
  refine ⟨r.swap, ?_⟩
  rw [buildInitialStack, hs₁, Option.bind_some, hs₂, Option.bind_some, hphdr, Option.bind_some, hr]
  rfl

/-! The whole call. -/

theorem load_entry (hhdr : readElfHeader d = some hdr)
    (hload : load d root s = some (entry, minBrk, t)) : entry = hdr.entry := by
  rw [load, hhdr, Option.bind_some] at hload
  obtain ⟨s₁,-,hload⟩ := Option.bind_eq_some_iff.mp hload
  obtain ⟨⟨ram,stock⟩,-,hload⟩ := Option.bind_eq_some_iff.mp hload
  obtain ⟨ram',-,heq⟩ := Option.map_eq_some_iff.mp hload
  cases heq
  rfl

theorem image_congr (hf : ∀ seg ∈ segs, seg.type = 1 → Fits d seg)
    (hsame : ∀ a < brkLimit, userByte root ram' a = userByte root ram a) :
    Image d segs root ram' ↔ Image d segs root ram := by
  refine forall₄_congr fun seg hm ht i => forall_congr' fun hi => ?_
  have hlow := (hf seg hm ht).low
  rw [hsame _ (by omega)]

/-- With frames enough `exec` comes to its end. Whenever it does, the program starts at the
file's entry point over its image, with `argc`, `argv`, `envp` and `auxv` on an aligned stack. -/
theorem exec_starts (d : BlockIo) (segs : List ProgramHeader) (hsegs : segments d = some segs)
    (hl : Loadable d segs) (root : Nat) (s : Loading) (h : UserSpace root (s.ram, s.stock)) :
    (Readable d → (segs.map frames).sum+userStackSize/1024 ≤ s.stock.length →
      ∃ r, exec d root s = some r) ∧
    ∀ entry rsp minBrk t, exec d root s = some (entry, rsp, minBrk, t) →
      ∃ hdr phdr, readElfHeader d = some hdr ∧ entry = hdr.entry ∧
        Starts d segs hdr root t.ram rsp phdr := by
  obtain ⟨hdr,hhdr,hheaders⟩ := Option.bind_eq_some_iff.mp hsegs
  have hphdr : findProgramHeadersVa d hdr = some (headersVa segs hdr) :=
    searchHeaders_eq hheaders
  refine ⟨fun hd hlen => ?_, fun entry rsp minBrk t hexec => ?_⟩
  · obtain ⟨⟨entry,minBrk,t⟩,hload⟩ := load_isSome hsegs h hd hl.fits hlen
    obtain ⟨h',hstack⟩ := load_stack hsegs hl.fits h hload
    have hbuilds : ∃ r, buildInitialStack d hdr entry root t.ram = some r :=
      buildInitialStack_isSome h' hphdr fun a hge hlt => by rw [hstack a hge hlt]; rfl
    obtain ⟨⟨rsp,ram⟩,hbuild⟩ := hbuilds
    refine ⟨(entry, rsp, minBrk, { t with ram := ram }), ?_⟩
    rw [exec, hhdr, Option.bind_some, hload, Option.bind_some]
    simp only [hbuild, Option.map_some]
  · rw [exec, hhdr, Option.bind_some] at hexec
    obtain ⟨⟨entry',minBrk',t'⟩,hload,hexec⟩ := Option.bind_eq_some_iff.mp hexec
    obtain ⟨⟨rsp',ram⟩,hbuild,heq⟩ := Option.map_eq_some_iff.mp hexec
    cases heq
    have hentry := load_entry hhdr hload
    have hbuilt := buildInitialStack_built (load_stack hsegs hl.fits h hload).1 hphdr hbuild
    refine ⟨hdr, headersVa segs hdr, hhdr, hentry, ?_⟩
    rw [hentry] at hbuilt
    exact {
      aligned := hbuilt.pointer ▸ stack_bounds.2.2.2.2.2
      words := hbuilt.words
      arg0 := hbuilt.arg0
      random := hbuilt.random
      phdr := programHeadersAt hl.fits
      image := (image_congr hl.fits hbuilt.rest).trans (image_iff_spares hsegs hl h hload) }

/-- One argument, whose address is followed by the ends of `argv` and `envp`. -/
theorem exec_starts_file : ∃ root s entry rsp minBrk t,
    exec (elfFile 0x401000) root s = some (entry, rsp, minBrk, t) ∧ rsp % 16 = 0 ∧
      Holds root t.ram rsp ([1, .ofNat arg0Addr, 0, 0].flatMap wordBytes) ∧
      Holds root t.ram arg0Addr arg0 ∧
      Image (elfFile 0x401000) [oneByte 0x400000, oneByte 0x401000] root t.ram := by
  obtain ⟨root,s,h,hlen⟩ := fresh_thread
  obtain ⟨hends,hstarts⟩ := exec_starts (elfFile 0x401000) _ elfFile_segments.2
    (elfFile_loadable (by decide) (by decide)) root s h
  obtain ⟨⟨entry,rsp,minBrk,t⟩,hr⟩ := hends (elfFile_readable _) (elfFile_frames.2.trans hlen)
  obtain ⟨_,_,-,-,hs⟩ := hstarts _ _ _ _ hr
  have hwords := hs.words
  rw [startWords, List.flatMap_append] at hwords
  exact ⟨root, s, entry, rsp, minBrk, t, hr, hs.aligned, hwords.left, hs.arg0,
    hs.image.mpr elfFile_spares.2⟩

end NetKernel.ElfExec
