import Yfs.Client.Content
import Yfs.Client.Effects

/-! `create` and `mkdir` on one directory and `write` and `setattr` on one file, called by any
number of clients at once. -/
namespace Yfs.Client
open Yfs.Lib Yfs.Extent

/-- A call of a client; `out` is what its `ino_out` holds before. -/
inductive Job where
  | create (name : Str) (out : UInt64)
  | mkdir (name : Str) (out : UInt64)
  | write (off : ℕ) (data : Str)
  | setattr (size : ℕ)

abbrev JobResult := YfsStatus × Option UInt64

namespace Job

def call (dir file : UInt64) : Job → M JobResult
  | .create name out => do
    let (r, ino) ← Client.create dir name out
    pure (r, some ino)
  | .mkdir name out => do
    let (r, ino) ← Client.mkdir dir name out
    pure (r, some ino)
  | .write off data => do
    let (r, _) ← Client.write file off data
    pure (r, none)
  | .setattr size => do
    let r ← Client.setattr file size
    pure (r, none)

def body (dir file : UInt64) : Job → M JobResult
  | .create name out => do
    let (r, ino) ← nlockCreate dir name out
    pure (r, some ino)
  | .mkdir name out => do
    let (r, ino) ← nlockAdd .dir dir name out
    pure (r, some ino)
  | .write off data => do
    let (r, _) ← nlockWrite file off data
    pure (r, none)
  | .setattr size => do
    let r ← nlockSetattr file size
    pure (r, none)

def target : Job → Target
  | .create _ _ => .dir
  | .mkdir _ _ => .dir
  | .write _ _ => .file
  | .setattr _ => .file

def newEntry : Job → Option (Str × FileType)
  | .create name _ => some (name, .file)
  | .mkdir name _ => some (name, .dir)
  | _ => none

/-- What the operation makes of the file in the reference model. -/
def image : Job → Image → Image
  | .write off data, i => i.write off data
  | .setattr size, i => i.truncate size
  | _, i => i

end Job

private theorem locked_map {α β : Type} (lid : UInt64) (p : M α) (f : α → β) :
    (do let a ← locked lid p; pure (f a)) = locked lid (do let a ← p; pure (f a)) := by
  have hassoc : (p.bind fun a => (Prog.call (.release lid) fun _ => .pure a)).bind
      (fun a => .pure (f a)) = (p.bind fun a => .pure (f a)).bind
        fun b => (Prog.call (.release lid) fun _ => .pure b) := by
    rw [Prog.bind_assoc, Prog.bind_assoc]
    rfl
  exact congrArg (Prog.call (Call.acquire lid)) (funext fun _ => hassoc)

section
variable {dir file : UInt64} {files files' : Files} {r : JobResult}

theorem Job.call_eq (j : Job) : j.call dir file = locked (j.target.inum dir file) (j.body dir file) := by
  cases j with
  | create name out => exact locked_map dir (nlockCreate dir name out) fun r => (r.1, some r.2)
  | mkdir name out => exact locked_map dir (nlockAdd .dir dir name out) fun r => (r.1, some r.2)
  | write off data => exact locked_map file (nlockWrite file off data) fun r => (r.1, none)
  | setattr size => exact locked_map file (nlockSetattr file size) fun r => (r, none)

theorem Job.all_body (j : Job) : (j.body dir file).All (OwnCall dir file j.target) := by
  have hadd : ∀ type name out, (nlockAdd type dir name out).All (OwnCall dir file .dir) :=
    all_nlockAdd rfl (fun _ => rfl) rfl fun _ => rfl
  have hget : OwnCall dir file .file (.get file) := rfl
  have hput : ∀ buf, OwnCall dir file .file (.put file buf) := fun _ => rfl
  cases j with
  | create name out => exact Prog.all_bind (hadd .file name out) fun _ => trivial
  | mkdir name out => exact Prog.all_bind (hadd .dir name out) fun _ => trivial
  | write off data => exact Prog.all_bind (all_nlockWrite hget hput off data) fun _ => trivial
  | setattr size => exact Prog.all_bind (all_nlockSetattr hget hput size) fun _ => trivial

private theorem leads_nlockWrite (files : Files) (ino : UInt64) (off : ℕ) (data : Str) :
    Leads (fun r files' => r.1 = .ok ∧ files' = files.put ino (writeAt (text (files ino)) off data))
      (nlockWrite ino off data) files := by
  refine (leads_get files ino).bind_returns ?_
  refine (leads_put files ino _).bind fun _ _ heq => ?_
  exact Prog.wp_pure ⟨rfl, heq⟩

private theorem leads_nlockSetattr (files : Files) (ino : UInt64) (size : ℕ) :
    Leads (fun r files' => r = .ok ∧ files' = files.put ino (resize (text (files ino)) size))
      (nlockSetattr ino size) files := by
  refine (leads_get files ino).bind_returns ?_
  refine (leads_put files ino _).bind fun _ _ heq => ?_
  exact Prog.wp_pure ⟨rfl, heq⟩

theorem Leads.of_exec {α : Type} {Q : α → Files → Prop} {p : M α} {a : α} (h : Leads Q p files)
    (hexec : p.Exec Files.serve files a files') : Q a files' := by
  refine Prog.Wp.result id (fun c w r w' hserve => ?_) h hexec
  cases c <;> first | exact hserve | exact hserve.elim

theorem Job.exec_file {j : Job} (hj : j.target = .file) {type : UInt32} {content : Str}
    (hfile : files file = some (type, content)) (h : (j.body dir file).Exec Files.serve files r files') :
    r = (.ok, none) ∧ ∃ content', files' file = some (type, content') ∧
      Image.ofContent content' = j.image (Image.ofContent content) := by
  have hput : ∀ buf, files.put file buf file = some (type, buf) := by
    intro buf
    rw [Files.put_of_live hfile, Function.update_self]
  cases j with
  | create name out => cases hj
  | mkdir name out => cases hj
  | write off data =>
    obtain ⟨⟨status, n⟩, files₁, hwrite, rfl, rfl⟩ := Prog.exec_bind.1 h
    obtain ⟨rfl, rfl⟩ := (leads_nlockWrite files file off data).of_exec hwrite
    rw [hfile, hput]
    exact ⟨rfl, _, rfl, Image.ofContent_writeAt content off data⟩
  | setattr size =>
    obtain ⟨status, files₁, hset, rfl, rfl⟩ := Prog.exec_bind.1 h
    obtain ⟨rfl, rfl⟩ := (leads_nlockSetattr files file size).of_exec hset
    rw [hfile, hput]
    exact ⟨rfl, _, rfl, Image.ofContent_resize content size⟩

theorem Job.exec_dir {j : Job} {name : Str} {type : FileType} (hj : j.newEntry = some (name, type))
    (h : (j.body dir file).Exec Files.serve files r files') :
    ∃ ino, r.2 = some ino ∧ Added files type dir name (r.1, ino) files' := by
  cases j with
  | create name' out =>
    cases hj
    obtain ⟨⟨status, ino⟩, files₁, hadd, rfl, rfl⟩ := Prog.exec_bind.1 h
    exact ⟨ino, rfl, (leads_nlockAdd files .file dir name out).of_exec hadd⟩
  | mkdir name' out =>
    cases hj
    obtain ⟨⟨status, ino⟩, files₁, hadd, rfl, rfl⟩ := Prog.exec_bind.1 h
    exact ⟨ino, rfl, (leads_nlockAdd files .dir dir name out).of_exec hadd⟩
  | write off data => cases hj
  | setattr size => cases hj

theorem Job.target_eq_dir {j : Job} : j.target = .dir ↔ ∃ e, j.newEntry = some e := by
  cases j <;> simp [target, newEntry]

end

def newEntries (new : List (Str × UInt64)) : List (Str × Str) := new.map fun e => (e.1, filename e.2)

section
variable {T : Type} {jobs : T → Job} {l : List (Str × Str)} {dir file : UInt64}

theorem findEntry_render (hl : ∀ e ∈ l, Plain e) (name : Str) :
    (findEntry (render l) name).isSome = decide (name ∈ l.map Prod.fst) := by
  rw [findEntry, entries_render hl, Bool.eq_iff_iff, List.find?_isSome, decide_eq_true_eq, List.mem_map]
  simp only [decide_eq_true_eq]

theorem names_append (l : List (Str × Str)) (new : List (Str × UInt64)) :
    (l ++ newEntries new).map Prod.fst = l.map Prod.fst ++ new.map Prod.fst := by
  rw [List.map_append, newEntries, List.map_map]
  rfl

theorem enter_grow_apply {files : Files} {ino : UInt64} {code : UInt32} {dirList : Str}
    (hdir : files dir = some (code, dirList)) (hfree : files ino = none) (type : FileType) (e : Str × Str)
    (id : UInt64) : (files.grow ino type).enter dir e id =
      if id = dir then some (code, addEntry dirList e) else if id = ino then some (type.code, [])
      else files id := by
  have hne : dir ≠ ino := by
    rintro rfl
    rw [hfree] at hdir
    cases hdir
  have hgrow : files.grow ino type dir = some (code, dirList) := by
    rw [Files.grow, Function.update_of_ne hne, hdir]
  rw [Files.enter, Files.put_of_live hgrow, hgrow]
  by_cases hid : id = dir
  · rw [if_pos hid, hid, Function.update_self]
    rfl
  · rw [if_neg hid, Function.update_of_ne hid, Files.grow, Function.update_apply]

/-- What the calls `done` one after the other made of files `w₀` with the entries `l` in the
directory: one entry for each call that returned `OK`, in their order. -/
structure Entered (jobs : T → Job) (dir : UInt64) (l : List (Str × Str)) (w₀ : Files)
    (done : List (T × JobResult)) (new : List (Str × UInt64)) (w : Files) : Prop where
  text : w dir = some (FileType.dir.code, render (l ++ newEntries new))
  names : (new.map Prod.fst).Nodup
  inums : (new.map Prod.snd).Nodup
  fresh : ∀ e ∈ new, e.1 ∉ l.map Prod.fst ∧ w₀ e.2 = none ∧ e.2 ≠ dir
  plain : ∀ e ∈ new, semi ∉ e.1
  ok : (done.filter fun x => x.2.1 = .ok).map (fun x => ((jobs x.1).newEntry.map Prod.fst, x.2.2)) =
    new.map fun e => (some e.1, some e.2)
  typed : ∀ x ∈ done, x.2.1 = .ok → ∀ name type ino, (jobs x.1).newEntry = some (name, type) →
    x.2.2 = some ino → w ino = some (type.code, [])
  status : ∀ x ∈ done, x.2.1 = .ok ∨ x.2.1 = .exist
  present : ∀ x ∈ done, ∀ name type, (jobs x.1).newEntry = some (name, type) →
    name ∈ l.map Prod.fst ∨ name ∈ new.map Prod.fst
  others : ∀ id, id ≠ dir → id ∉ new.map Prod.snd → w id = w₀ id

section
variable {w₀ w : Files} {done : List (T × JobResult)} {new : List (Str × UInt64)}

theorem Entered.plain_entries (h : Entered jobs dir l w₀ done new w) (hl : ∀ e ∈ l, Plain e) :
    ∀ e ∈ l ++ newEntries new, Plain e := by
  intro e he
  rcases List.mem_append.1 he with he | he
  · exact hl e he
  · obtain ⟨⟨name, ino⟩, hmem, rfl⟩ := List.mem_map.1 he
    exact ⟨h.plain _ hmem, semi_not_mem_filename ino, filename_ne_nil ino⟩

theorem Entered.exists_ok (h : Entered jobs dir l w₀ done new w) {e : Str × UInt64} (he : e ∈ new) :
    ∃ t type, (t, YfsStatus.ok, some e.2) ∈ done ∧ (jobs t).newEntry = some (e.1, type) ∧
      w e.2 = some (type.code, []) := by
  have hmem : (some e.1, some e.2) ∈
      (done.filter fun x => x.2.1 = .ok).map fun x => ((jobs x.1).newEntry.map Prod.fst, x.2.2) := by
    rw [h.ok]
    exact List.mem_map_of_mem he
  obtain ⟨⟨t, r, out⟩, ht, heq⟩ := List.mem_map.1 hmem
  obtain ⟨hname, hout⟩ := Prod.mk.inj heq
  obtain ⟨hdone, hr⟩ := List.mem_filter.1 ht
  obtain rfl : r = .ok := of_decide_eq_true hr
  obtain rfl : out = some e.2 := hout
  obtain ⟨⟨name, type⟩, hentry, rfl⟩ := Option.map_eq_some_iff.1 hname
  exact ⟨t, type, hdone, hentry, h.typed _ hdone rfl _ type _ hentry rfl⟩

theorem Entered.mem_of_ok (h : Entered jobs dir l w₀ done new w) {t : T} {out : Option UInt64}
    (ht : (t, YfsStatus.ok, out) ∈ done) {name : Str} {type : FileType}
    (hentry : (jobs t).newEntry = some (name, type)) : ∃ ino, out = some ino ∧ (name, ino) ∈ new := by
  have hmem : ((jobs t).newEntry.map Prod.fst, out) ∈ new.map fun e => (some e.1, some e.2) := by
    rw [← h.ok]
    exact List.mem_map.2 ⟨_, List.mem_filter.2 ⟨ht, decide_eq_true rfl⟩, rfl⟩
  obtain ⟨e, he, heq⟩ := List.mem_map.1 hmem
  rw [hentry] at heq
  obtain ⟨hname, rfl⟩ := Prod.mk.inj heq
  obtain rfl : e.1 = name := Option.some.inj hname
  exact ⟨e.2, rfl, he⟩

theorem Entered.ok_unique (h : Entered jobs dir l w₀ done new w) {t t' : T} {out out' : Option UInt64}
    (ht : (t, YfsStatus.ok, out) ∈ done) (ht' : (t', YfsStatus.ok, out') ∈ done) {name : Str}
    {type type' : FileType} (hentry : (jobs t).newEntry = some (name, type))
    (hentry' : (jobs t').newEntry = some (name, type')) : t' = t := by
  obtain ⟨ino, rfl, he⟩ := h.mem_of_ok ht hentry
  obtain ⟨ino', rfl, he'⟩ := h.mem_of_ok ht' hentry'
  have hsame := congrArg Prod.snd (List.inj_on_of_nodup_map h.names he he' rfl)
  obtain rfl : ino = ino' := hsame
  have hnodup : ((done.filter fun x => x.2.1 = .ok).map
      fun x => ((jobs x.1).newEntry.map Prod.fst, x.2.2)).Nodup := by
    rw [h.ok]
    refine h.inums.of_map.map ?_
    intro a b hab
    obtain ⟨hfst, hsnd⟩ := Prod.mk.inj hab
    exact Prod.ext (Option.some.inj hfst) (Option.some.inj hsnd)
  have hfilter : ∀ {u : T}, (u, YfsStatus.ok, some ino) ∈ done →
      (u, YfsStatus.ok, some ino) ∈ done.filter fun x => x.2.1 = .ok :=
    fun hu => List.mem_filter.2 ⟨hu, decide_eq_true rfl⟩
  have heq := List.inj_on_of_nodup_map hnodup (hfilter ht') (hfilter ht) (by rw [hentry, hentry']; rfl)
  exact congrArg Prod.fst heq

theorem Entered.dead_inum (h : Entered jobs dir l w₀ done new w) {ino : UInt64} (hfree : w ino = none) :
    ino ≠ dir ∧ ino ∉ new.map Prod.snd ∧ w₀ ino = none := by
  have hdir : ino ≠ dir := by
    rintro rfl
    rw [h.text] at hfree
    cases hfree
  have hnew : ino ∉ new.map Prod.snd := by
    intro hmem
    obtain ⟨e, he, rfl⟩ := List.mem_map.1 hmem
    obtain ⟨t, type, -, -, hlive⟩ := h.exists_ok he
    rw [hlive] at hfree
    cases hfree
  exact ⟨hdir, hnew, (h.others ino hdir hnew).symm.trans hfree⟩

private theorem Entered.snoc_exist (h : Entered jobs dir l w₀ done new w) {t : T} {name : Str}
    {type : FileType} (ht : (jobs t).newEntry = some (name, type)) (out : Option UInt64)
    (hmem : name ∈ l.map Prod.fst ∨ name ∈ new.map Prod.fst) :
    Entered jobs dir l w₀ (done ++ [(t, .exist, out)]) new w := by
  refine ⟨h.text, h.names, h.inums, h.fresh, h.plain, ?_, ?_, ?_, ?_, h.others⟩
  · rw [List.filter_append, List.map_append, h.ok]
    simp
  · refine List.forall_mem_append.2 ⟨h.typed, List.forall_mem_singleton.2 fun hok => ?_⟩
    cases hok
  · exact List.forall_mem_append.2 ⟨h.status, List.forall_mem_singleton.2 (.inr rfl)⟩
  · refine List.forall_mem_append.2 ⟨h.present, List.forall_mem_singleton.2 fun n ty hn => ?_⟩
    rw [ht] at hn
    cases hn
    exact hmem

private theorem Entered.snoc_ok (h : Entered jobs dir l w₀ done new w) {t : T} {name : Str}
    {type : FileType} (ht : (jobs t).newEntry = some (name, type)) (hname : semi ∉ name) {ino : UInt64}
    (hmem : ¬(name ∈ l.map Prod.fst ∨ name ∈ new.map Prod.fst)) (hfree : w ino = none) :
    Entered jobs dir l w₀ (done ++ [(t, .ok, some ino)]) (new ++ [(name, ino)])
      ((w.grow ino type).enter dir (name, filename ino)) := by
  obtain ⟨hdir, hnew, hfree₀⟩ := h.dead_inum hfree
  obtain ⟨hold, hnames⟩ := not_or.1 hmem
  have hfiles := enter_grow_apply h.text hfree type (name, filename ino)
  have hkeep : ∀ id v, w id = some v → id ≠ dir →
      (w.grow ino type).enter dir (name, filename ino) id = some v := by
    intro id v hv hid
    have hne : id ≠ ino := by
      rintro rfl
      rw [hfree] at hv
      cases hv
    rw [hfiles, if_neg hid, if_neg hne, hv]
  have hlast : ∀ {K : Str × UInt64 → Prop}, (∀ e ∈ new, K e) → K (name, ino) →
      ∀ e ∈ new ++ [(name, ino)], K e :=
    fun hbefore hlast => List.forall_mem_append.2 ⟨hbefore, List.forall_mem_singleton.2 hlast⟩
  have hdone : ∀ {K : T × JobResult → Prop}, (∀ x ∈ done, K x) → K (t, .ok, some ino) →
      ∀ x ∈ done ++ [(t, .ok, some ino)], K x :=
    fun hbefore hlast => List.forall_mem_append.2 ⟨hbefore, List.forall_mem_singleton.2 hlast⟩
  constructor
  · rw [hfiles, if_pos rfl, addEntry_render, newEntries, newEntries, List.map_append, List.map_singleton,
      List.append_assoc]
  · rw [List.map_append, List.map_singleton, ← List.concat_eq_append]
    exact h.names.concat hnames
  · rw [List.map_append, List.map_singleton, ← List.concat_eq_append]
    exact h.inums.concat hnew
  · exact hlast h.fresh ⟨hold, hfree₀, hdir⟩
  · exact hlast h.plain hname
  · rw [List.filter_append, List.map_append, h.ok, List.map_append]
    simp [ht]
  · refine hdone (fun x hx hok n ty i hn hi => ?_) fun _ n ty i hn hi => ?_
    · have hlive := h.typed x hx hok n ty i hn hi
      obtain ⟨t', r', out'⟩ := x
      obtain rfl : r' = .ok := hok
      obtain ⟨i', rfl, he⟩ := h.mem_of_ok hx hn
      cases hi
      exact hkeep i _ hlive (h.fresh _ he).2.2
    · rw [ht] at hn
      cases hn
      cases hi
      rw [hfiles, if_neg hdir, if_pos rfl]
  · exact hdone h.status (.inl rfl)
  · refine hdone (fun x hx n ty hn => ?_) fun n ty hn => ?_
    · rw [List.map_append]
      exact (h.present x hx n ty hn).imp_right fun hn' => List.mem_append_left _ hn'
    · rw [ht] at hn
      cases hn
      rw [List.map_append]
      exact .inr (List.mem_append_right _ (List.mem_singleton.2 rfl))
  · intro id hid hnot
    rw [List.map_append, List.mem_append, not_or] at hnot
    have hne : id ≠ ino := fun heq => hnot.2 (List.mem_singleton.2 heq)
    rw [hfiles, if_neg hid, if_neg hne]
    exact h.others id hid hnot.1

theorem Entered.snoc (h : Entered jobs dir l w₀ done new w) (hl : ∀ e ∈ l, Plain e) {t : T} {name : Str}
    {type : FileType} (ht : (jobs t).newEntry = some (name, type)) (hname : semi ∉ name) {r : JobResult}
    {w' : Files} (hexec : ((jobs t).body dir file).Exec Files.serve w r w') :
    ∃ new', Entered jobs dir l w₀ (done ++ [(t, r)]) new' w' := by
  obtain ⟨status, out⟩ := r
  obtain ⟨ino, rfl, hadd⟩ := Job.exec_dir ht hexec
  have hentry : (w.entry? dir name).isSome =
      decide (name ∈ l.map Prod.fst ∨ name ∈ new.map Prod.fst) := by
    rw [Files.entry?, Files.dir_eq_some.2 h.text, Option.bind_some, findEntry_render (h.plain_entries hl),
      names_append]
    exact decide_eq_decide.2 List.mem_append
  rcases hadd with ⟨e, he, hstatus, rfl⟩ | ⟨he, hfree, hstatus, rfl⟩
  · obtain rfl : status = .exist := hstatus
    rw [he] at hentry
    exact ⟨new, h.snoc_exist ht _ (of_decide_eq_true hentry.symm)⟩
  · obtain rfl : status = .ok := hstatus
    rw [he] at hentry
    exact ⟨_, h.snoc_ok ht hname (of_decide_eq_false hentry.symm) hfree⟩

end

theorem entered_of_serial (hl : ∀ e ∈ l, Plain e)
    (hnames : ∀ t name type, (jobs t).newEntry = some (name, type) → semi ∉ name)
    {done : List (T × JobResult)} {w₀ w : Files} (hdir : w₀ dir = some (FileType.dir.code, render l))
    (h : Serial Files.serve (fun t => (jobs t).body dir file) w₀ done w)
    (hdone : ∀ x ∈ done, (jobs x.1).target = .dir) : ∃ new, Entered jobs dir l w₀ done new w := by
  induction h with
  | nil =>
    refine ⟨[], ?_, List.nodup_nil, List.nodup_nil, by simp, by simp, rfl, by simp, by simp, by simp,
      fun _ _ _ => rfl⟩
    rw [hdir, newEntries, List.map_nil, List.append_nil]
  | @snoc done w w' t r _ hexec ih =>
    obtain ⟨hbefore, hlast⟩ := List.forall_mem_append.1 hdone
    obtain ⟨new, hentered⟩ := ih hbefore
    obtain ⟨⟨name, type⟩, ht⟩ := Job.target_eq_dir.1 (hlast _ (List.mem_singleton.2 rfl))
    exact hentered.snoc hl ht (hnames t name type ht) hexec

theorem content_of_serial {type : UInt32} {content : Str} {done : List (T × JobResult)} {w₀ w : Files}
    (hfile : w₀ file = some (type, content))
    (h : Serial Files.serve (fun t => (jobs t).body dir file) w₀ done w)
    (hdone : ∀ x ∈ done, (jobs x.1).target = .file) :
    (∀ x ∈ done, x.2 = (.ok, none)) ∧ ∃ content', w file = some (type, content') ∧
      Image.ofContent content' =
        (done.map Prod.fst).foldl (fun i t => (jobs t).image i) (Image.ofContent content) := by
  induction h with
  | nil => exact ⟨by simp, content, hfile, rfl⟩
  | @snoc done w w' t r _ hexec ih =>
    obtain ⟨hbefore, hlast⟩ := List.forall_mem_append.1 hdone
    obtain ⟨hok, content₁, hfile₁, himage₁⟩ := ih hbefore
    obtain ⟨rfl, content₂, hfile₂, himage₂⟩ :=
      Job.exec_file (hlast _ (List.mem_singleton.2 rfl)) hfile₁ hexec
    refine ⟨List.forall_mem_append.2 ⟨hok, List.forall_mem_singleton.2 rfl⟩, content₂, hfile₂, ?_⟩
    rw [himage₂, himage₁, List.map_append, List.foldl_append]
    rfl

def start (dir file : UInt64) (jobs : T → Job) (w : Files) : Pool Call Reply T (World T) JobResult where
  state := ⟨w, fun _ => none⟩
  prog t := (jobs t).call dir file

theorem invariant_of_run [DecidableEq T] (hne : dir ≠ file) {w : Files} (hlive : w.Live dir file)
    {p : Pool Call Reply T (World T) JobResult}
    (hrun : Relation.ReflTransGen (Pool.Step World.serve) (start dir file jobs w) p) :
    (locking (T := T) hne).Invariant (fun t => (jobs t).target) (fun t => (jobs t).body dir file)
      ⟨w, fun _ => none⟩ p := by
  have hstart : start dir file jobs w = ⟨⟨w, fun _ => none⟩, fun t =>
      (locking (T := T) hne).guarded (jobs t).target ((jobs t).body dir file)⟩ := by
    rw [start]
    exact congrArg _ (funext fun t => Job.call_eq (jobs t))
  rw [hstart] at hrun
  have hvalid : (locking (T := T) hne).valid ⟨w, fun _ => none⟩ := hlive
  exact Locking.invariant_of_run hvalid (fun _ => rfl) (fun t => (jobs t).all_body) hrun

/-- The directory has got one entry for each new name, made by the only call for it that returned
`OK`, with an inum of its own. No file but this directory and `file` has changed. -/
structure AllEntered (jobs : T → Job) (dir file : UInt64) (l : List (Str × Str)) (w w' : Files)
    (res : T → JobResult) (new : List (Str × UInt64)) : Prop where
  text : w' dir = some (FileType.dir.code, render (l ++ newEntries new))
  names : (new.map Prod.fst).Nodup
  inums : (new.map Prod.snd).Nodup
  asked : ∀ name, name ∈ new.map Prod.fst ↔
    (∃ t type, (jobs t).newEntry = some (name, type)) ∧ name ∉ l.map Prod.fst
  made : ∀ e ∈ new, w e.2 = none ∧ ∃ t type, (jobs t).newEntry = some (e.1, type) ∧
    res t = (.ok, some e.2) ∧ w' e.2 = some (type.code, []) ∧
    ∀ t' type', (jobs t').newEntry = some (e.1, type') → t' ≠ t → (res t').1 = .exist
  old : ∀ t name type, (jobs t).newEntry = some (name, type) → name ∈ l.map Prod.fst → (res t).1 = .exist
  others : ∀ id, id ≠ dir → id ≠ file → id ∉ new.map Prod.snd → w' id = w id

/-- The file is what the operations on it make of it in this order. -/
structure AllApplied (jobs : T → Job) (file : UInt64) (content : Str) (w' : Files) (res : T → JobResult)
    (order : List T) : Prop where
  nodup : order.Nodup
  mem : ∀ t, t ∈ order ↔ (jobs t).target = .file
  ok : ∀ t ∈ order, res t = (.ok, none)
  image : ∃ content', w' file = some (FileType.file.code, content') ∧
    Image.ofContent content' = order.foldl (fun i t => (jobs t).image i) (Image.ofContent content)

section
variable {w w' : Files} {res : T → JobResult} {done : List (T × JobResult)}

theorem Entered.allEntered {new : List (Str × UInt64)} (hne : dir ≠ file)
    (h : Entered jobs dir l (Target.dir.view file w) done new (Target.dir.view file w'))
    (hdone : ∀ t r, (t, r) ∈ done ↔ (jobs t).target = .dir ∧ res t = r) :
    AllEntered jobs dir file l w w' res new := by
  have hmem : ∀ {t e}, (jobs t).newEntry = some e → (t, res t) ∈ done :=
    fun ht => (hdone _ _).2 ⟨Job.target_eq_dir.2 ⟨_, ht⟩, rfl⟩
  have hview : ∀ (w : Files) {id}, id ≠ file → Target.dir.view file w id = w id :=
    fun w id hid => Function.update_of_ne hid _ _
  have hnew : ∀ e ∈ new, e.2 ≠ file := by
    intro e he heq
    have hfree := (h.fresh e he).2.1
    rw [heq, Target.view, Function.update_self] at hfree
    cases hfree
  constructor
  · rw [← hview w' hne, h.text]
  · exact h.names
  · exact h.inums
  · intro name
    constructor
    · intro hname
      obtain ⟨e, he, rfl⟩ := List.mem_map.1 hname
      obtain ⟨t, type, -, ht, -⟩ := h.exists_ok he
      exact ⟨⟨t, type, ht⟩, (h.fresh e he).1⟩
    · rintro ⟨⟨t, type, ht⟩, hold⟩
      exact (h.present _ (hmem ht) name type ht).resolve_left hold
  · intro e he
    obtain ⟨t, type, hok, ht, hlive⟩ := h.exists_ok he
    refine ⟨?_, t, type, ht, ((hdone t _).1 hok).2, ?_, fun t' type' ht' hne' => ?_⟩
    · rw [← hview w (hnew e he)]
      exact (h.fresh e he).2.1
    · rw [← hview w' (hnew e he), hlive]
    · refine (h.status _ (hmem ht')).resolve_left fun hok' => hne' ?_
      have hin := hmem ht'
      rw [← Prod.eta (res t'), hok'] at hin
      exact h.ok_unique hok hin ht ht'
  · intro t name type ht hold
    refine (h.status _ (hmem ht)).resolve_left fun hok => ?_
    have hin := hmem ht
    rw [← Prod.eta (res t), hok] at hin
    obtain ⟨ino, -, he⟩ := h.mem_of_ok hin ht
    exact (h.fresh _ he).1 hold
  · intro id hid hfile hnot
    rw [← hview w' hfile, ← hview w hfile]
    exact h.others id hid hnot

end

/-- No update is lost or made twice. The calls come to an end: no run goes on for ever, and as long
as there is an inum for `create` some call goes on until all have returned. Then each new name is
there once and the file is what the operations on it make of it in some order. -/
theorem no_lost_update [Finite T] [DecidableEq T] {w : Files} {content : Str}
    (hdir : w dir = some (FileType.dir.code, render l)) (hl : ∀ e ∈ l, Plain e)
    (hfile : w file = some (FileType.file.code, content))
    (hnames : ∀ t name type, (jobs t).newEntry = some (name, type) → semi ∉ name) :
    (∀ run : ℕ → Pool Call Reply T (World T) JobResult, run 0 = start dir file jobs w →
      ∃ n, ¬Pool.Step World.serve (run n) (run (n + 1))) ∧
    ∀ p, Relation.ReflTransGen (Pool.Step World.serve) (start dir file jobs w) p →
      ((∃ id, p.state.files id = none) → (∃ t, ∀ r, p.prog t ≠ .pure r) →
        ∃ p', Pool.Step World.serve p p') ∧
      ∀ res, (∀ t, p.prog t = .pure (res t)) →
        (∃ new, AllEntered jobs dir file l w p.state.files res new) ∧
        ∃ order, AllApplied jobs file content p.state.files res order := by
  have hne : dir ≠ file := by
    intro heq
    rw [← heq, hdir] at hfile
    have htype : FileType.dir.code = FileType.file.code := congrArg Prod.fst (Option.some.inj hfile)
    exact absurd htype (by decide)
  have hlive : w.Live dir file := by
    intro target
    cases target with
    | dir =>
      rw [Target.inum, hdir]
      exact Option.some_ne_none _
    | file =>
      rw [Target.inum, hfile]
      exact Option.some_ne_none _
  constructor
  · intro run _
    exact Pool.exists_not_step World.serve run
  intro p hrun
  have hinv := invariant_of_run hne hlive hrun
  constructor
  · rintro hfresh ⟨t, ht⟩
    exact hinv.exists_step (fun t l hfree => ⟨(), _, hfree, rfl⟩) (fun t l hheld => ⟨(), _, hheld, rfl⟩)
      (fun t l c hown => World.exists_serve hown hfresh) ht
  intro res hres
  have hserial := hinv.serial_of_end fun t => ⟨res t, hres t⟩
  have hdone : ∀ {target} {done : List (T × JobResult)},
      (∀ t r, (t, r) ∈ done ↔ (jobs t).target = target ∧ p.prog t = .pure r) →
      ∀ t r, (t, r) ∈ done ↔ (jobs t).target = target ∧ res t = r := by
    intro target done h t r
    rw [h, hres, Prog.pure.injEq]
  constructor
  · obtain ⟨done, hdirs, -, hmem⟩ := hserial .dir
    have hmem := hdone hmem
    have hdir' : Target.dir.view file w dir = some (FileType.dir.code, render l) :=
      (Target.view_inum hne w .dir).trans hdir
    obtain ⟨new, hentered⟩ :=
      entered_of_serial hl hnames hdir' hdirs fun x hx => ((hmem x.1 x.2).1 hx).1
    exact ⟨new, hentered.allEntered hne hmem⟩
  · obtain ⟨done, hfiles, hnodup, hmem⟩ := hserial .file
    have hmem := hdone hmem
    have hfile' : Target.file.view file w file = some (FileType.file.code, content) :=
      (Target.view_inum hne w .file).trans hfile
    obtain ⟨hok, content', hfinal, himage⟩ :=
      content_of_serial hfile' hfiles fun x hx => ((hmem x.1 x.2).1 hx).1
    have hthreads : ∀ t, t ∈ done.map Prod.fst ↔ (jobs t).target = .file := by
      intro t
      constructor
      · intro ht
        obtain ⟨x, hx, rfl⟩ := List.mem_map.1 ht
        exact ((hmem x.1 x.2).1 hx).1
      · intro ht
        exact List.mem_map_of_mem ((hmem t (res t)).2 ⟨ht, rfl⟩)
    refine ⟨done.map Prod.fst, hnodup, hthreads, fun t ht => ?_, content', ?_, himage⟩
    · exact hok _ ((hmem t (res t)).2 ⟨(hthreads t).1 ht, rfl⟩)
    · exact (Target.view_inum hne p.state.files .file).symm.trans hfinal

end

def twoFiles : Files := fun id =>
  if id = 1 then some (FileType.dir.code, []) else if id = 2 then some (FileType.file.code, []) else none

/-- Two calls for the name `a`, and two on the file. -/
def fourJobs : Fin 4 → Job
  | 0 => .create [97] 0
  | 1 => .mkdir [97] 0
  | 2 => .write 1 [7]
  | 3 => .setattr 3

def fourResults : Fin 4 → JobResult
  | 0 => (.ok, some 3)
  | 1 => (.exist, some 3)
  | 2 => (.ok, none)
  | 3 => (.ok, none)

/-- The write runs inside the section of `create`, and `setattr` inside that of `mkdir`. -/
theorem no_lost_update_four : ∃ p : Pool Call Reply (Fin 4) (World (Fin 4)) JobResult,
    Relation.ReflTransGen (Pool.Step World.serve) (start 1 2 fourJobs twoFiles) p ∧
    (∀ t, p.prog t = .pure (fourResults t)) ∧
    (∃ new, AllEntered fourJobs 1 2 [] twoFiles p.state.files fourResults new) ∧
    ∃ order, AllApplied fourJobs 2 [] p.state.files fourResults order := by
  have hplay : (Pool.play World.reply [0, 2, 0, 2, 0, 0, 2, 0, 0, 2, 0, 1, 3, 1, 3, 1, 3, 3, 1]
      (start 1 2 fourJobs twoFiles)).any
      (fun p => decide (∀ t, (p.prog t).value? = some (fourResults t))) = true := by
    decide +kernel
  obtain ⟨p, hp, hcheck⟩ := (Option.any_eq_true _ _).1 hplay
  have hend := fun t => Prog.eq_pure_of_value? (of_decide_eq_true hcheck t)
  have hplain : ∀ t, ((fourJobs t).newEntry.all fun e => decide (semi ∉ e.1)) = true := by decide
  have hnames : ∀ t name type, (fourJobs t).newEntry = some (name, type) → semi ∉ name := by
    intro t name type h
    have hname := hplain t
    rw [h] at hname
    exact of_decide_eq_true hname
  have hrun := World.run_of_play hp
  have hfile : twoFiles 2 = some (FileType.file.code, []) := rfl
  have hall := (no_lost_update (l := []) (w := twoFiles) rfl (by simp) hfile hnames).2 p hrun
  exact ⟨p, hrun, hend, hall.2 fourResults hend⟩

end Yfs.Client
