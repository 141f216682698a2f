import OsAssignments.Ext2.FileSystem

/-!
# The tree of directories

* `Reached` — the root, or a directory that a plain name leads to.
* `Shaped` — the plain names of directories form a tree below the root, and in each of them `.`
  leads to itself and `..` to the directory above.
* `Shaped.makeDir`, `Shaped.link`, `Shaped.of_sameDirs`, `Shaped.leftBehind` — what the commands
  do keeps that; `Does.shaped`, `Untouched.shaped` — so every command does.
-/

namespace OsAssignments
namespace Ext2

open NameGraph

namespace FileSystem

/-- A plain name in `p` leads to the directory `n`. -/
abbrev Under (fs : FileSystem) (p n : Nat) : Prop := Below fs.names dotNames ext2FtDir p n

/-- A directory of the tree. -/
def Reached (fs : FileSystem) (n : Nat) : Prop := n = ext2RootIno ∨ ∃ p, fs.Under p n

/-- The directories form a tree with the names `.` and `..` in it. -/
structure Shaped (fs : FileSystem) : Prop where
  tree : Tree fs.names dotNames ext2FtDir ext2RootIno
  above : ∀ p n, fs.Under p n → fs.Reached p
  own : ∀ n, fs.Reached n → fs.names n dot = some (n, ext2FtDir)
  up : ∀ p n, fs.Under p n → fs.names n dotDot = some (p, ext2FtDir)
  rootUp : fs.names ext2RootIno dotDot = some (ext2RootIno, ext2FtDir)
  /-- No name leads further from what is no directory. -/
  files : ∀ m x n kind, fs.names m x = some (n, kind) → kind ≠ ext2FtDir → ∀ y, fs.names n y = none

section

variable {fs fs' : FileSystem} {host : CString → Option (List UInt8)} {cmd : TreeCommand}
  {path : List CString} {p n kind : Nat} {name : CString} {b : Nat × Nat}

theorem mem_dotNames : name ∈ dotNames ↔ name = dot ∨ name = dotDot := Iff.rfl

/-! ## Paths stay in the tree -/

namespace Shaped

/-- `..` leads to a directory of the tree. -/
theorem reached_up (h : fs.Shaped) (hn : fs.Reached n) :
    ∃ q, fs.names n dotDot = some (q, ext2FtDir) ∧ fs.Reached q := by
  rcases hn with rfl | ⟨q, hq⟩
  · exact ⟨_, h.rootUp, .inl rfl⟩
  · exact ⟨q, h.up q n hq, h.above q n hq⟩

/-- A name in a directory of the tree leads to another one, or to a file. -/
theorem reached_name (h : fs.Shaped) (hn : fs.Reached n) (hname : fs.names n name = some b)
    (hdir : b.2 = ext2FtDir) : fs.Reached b.1 := by
  obtain ⟨m, kind⟩ := b
  dsimp only at hdir
  subst hdir
  by_cases hdot : name ∈ dotNames
  · rcases mem_dotNames.mp hdot with rfl | rfl
    · rw [h.own n hn] at hname
      cases hname
      exact hn
    · obtain ⟨q, hq, hreached⟩ := h.reached_up hn
      rw [hq] at hname
      cases hname
      exact hreached
  · exact .inr ⟨n, name, hdot, hname⟩

theorem reached_walkFrom (h : fs.Shaped) (hn : fs.Reached n) {found : Option (Nat × Nat)}
    (hfound : ∀ c, found = some c → c.2 = ext2FtDir → fs.Reached c.1)
    (hwalk : walkFrom fs.names found n path = some b) (hdir : b.2 = ext2FtDir) :
    fs.Reached b.1 := by
  induction path generalizing found n with
  | nil => exact hfound b hwalk hdir
  | cons first rest ih =>
    rw [walkFrom] at hwalk
    cases hfirst : fs.names n first with
    | none =>
      rw [hfirst] at hwalk
      cases hwalk
    | some c =>
      rw [hfirst] at hwalk
      dsimp only at hwalk
      by_cases hc : c.2 = ext2FtDir
      · have hreached := h.reached_name hn hfirst hc
        refine ih hreached (fun c' hc' _ => ?_) hwalk
        obtain rfl : c = c' := Option.some.inj hc'
        exact hreached
      · -- nothing is found behind a file
        cases rest with
        | nil =>
          rw [walkFrom_nil] at hwalk
          cases hwalk
          exact absurd hdir hc
        | cons second rest =>
          rw [walkFrom, h.files n first c.1 c.2 hfirst hc second] at hwalk
          cases hwalk

/-- **A path leads to a file or to a directory of the tree.** -/
theorem reached_lookup (h : fs.Shaped) (hpath : fs.lookup path = some (n, ext2FtDir)) :
    fs.Reached n :=
  h.reached_walkFrom (.inl rfl) (fun c hc => by cases hc) hpath rfl

/-- The place of a new name is in the tree, and the name is none of the special ones. -/
theorem reached_place (h : fs.Shaped) (hplace : fs.Place path p) :
    fs.Reached p ∧ path.getLastD [] ∉ dotNames := by
  have hp := h.reached_lookup hplace.parent
  refine ⟨hp, fun hdot => ?_⟩
  have hfree := hplace.free
  rcases mem_dotNames.mp hdot with heq | heq
  · rw [heq, h.own p hp] at hfree
    cases hfree
  · obtain ⟨q, hq, -⟩ := h.reached_up hp
    rw [heq, hq] at hfree
    cases hfree

end Shaped

theorem Fresh.not_reached (h : fs.Fresh n) : ¬ fs.Reached n := by
  rintro (rfl | ⟨q, x, -, hx⟩)
  · exact h.notRoot rfl
  · exact h.unnamed q x _ hx rfl

/-! ## Changes away from the directories -/

/-- The same names of directories. -/
def SameDirs (fs fs' : FileSystem) : Prop :=
  ∀ m x k, fs'.names m x = some (k, ext2FtDir) ↔ fs.names m x = some (k, ext2FtDir)

theorem SameDirs.under (h : fs.SameDirs fs') {m k : Nat} : fs'.Under m k ↔ fs.Under m k :=
  exists_congr fun x => and_congr_right fun _ => h m x k

theorem SameDirs.reached (h : fs.SameDirs fs') {m : Nat} : fs'.Reached m ↔ fs.Reached m :=
  or_congr_right (exists_congr fun _ => h.under)

theorem Shaped.of_sameDirs (h : fs.Shaped) (hdirs : fs.SameDirs fs')
    (hfiles : ∀ m x n kind, fs'.names m x = some (n, kind) → kind ≠ ext2FtDir →
      ∀ y, fs'.names n y = none) : fs'.Shaped where
  tree := h.tree.mono fun m x k _ hk => (hdirs m x k).mp hk
  above m k hmk := hdirs.reached.mpr (h.above m k (hdirs.under.mp hmk))
  own m hm := (hdirs _ _ _).mpr (h.own m (hdirs.reached.mp hm))
  up m k hmk := (hdirs _ _ _).mpr (h.up m k (hdirs.under.mp hmk))
  rootUp := (hdirs _ _ _).mpr h.rootUp
  files := hfiles

/-- A name for a file. -/
theorem Shaped.link (h : fs.Shaped) (hp : fs.Reached p) (hfree : fs.names p name = none)
    (hkind : kind ≠ ext2FtDir) (hleaf : ∀ y, fs.names n y = none) :
    (fs.link p name n kind).Shaped := by
  have hown := h.own p hp
  have hnp : n ≠ p := by
    rintro rfl
    rw [hleaf] at hown
    cases hown
  refine h.of_sameDirs (fun m x k => ?_) fun m x k kind' hk hkind' y => ?_
  · refine link_eq_some.trans ⟨?_, fun hk => .inr ⟨?_, hk⟩⟩
    · rintro (⟨-, heq⟩ | ⟨-, hk⟩)
      · exact absurd (congrArg Prod.snd heq).symm hkind
      · exact hk
    · rintro ⟨rfl, rfl⟩
      rw [hfree] at hk
      cases hk
  · have hother : ∀ k, k ≠ p → fs.names k y = none → (fs.link p name n kind).names k y = none :=
      fun k hkp hnone => (link_of_ne fun hand => hkp hand.1).trans hnone
    rcases link_eq_some.mp hk with ⟨-, heq⟩ | ⟨-, hk⟩
    · obtain rfl : k = n := congrArg Prod.fst heq
      exact hother k hnp (hleaf y)
    · have hnone := h.files m x k kind' hk hkind'
      refine hother k ?_ (hnone y)
      rintro rfl
      rw [hnone] at hown
      cases hown

/-- A name of a file taken away. -/
theorem Shaped.unlink (h : fs.Shaped) (hname : fs.names p name = some (n, kind))
    (hkind : kind ≠ ext2FtDir) : (fs.unlink p name).Shaped := by
  refine h.of_sameDirs (fun m x k => ?_) fun m x k kind' hk hkind' y => ?_
  · refine unlink_eq_some.trans (and_iff_right_of_imp fun hk => ?_)
    rintro ⟨rfl, rfl⟩
    rw [hname] at hk
    cases hk
    exact hkind rfl
  · have hnone := h.files m x k kind' (unlink_eq_some.mp hk).2 hkind' y
    by_cases hself : k = p ∧ y = name
    · rw [hself.1, hself.2]
      exact unlink_self
    · exact (unlink_of_ne hself).trans hnone

theorem Shaped.setContent (h : fs.Shaped) (n : Nat) (content : Option (List UInt8)) :
    (fs.setContent n content).Shaped :=
  h.of_sameDirs (fun _ _ _ => Iff.rfl) h.files

/-- What a command leaves behind is not in the tree. -/
theorem Shaped.leftBehind (h : fs.Shaped) (hleft : LeftBehind fs fs' n) : fs'.Shaped := by
  have hout := hleft.fresh.not_reached
  have hunder : ∀ m k, fs'.Under m k ↔ fs.Under m k := by
    intro m k
    refine exists_congr fun x => and_congr_right fun hx => ?_
    by_cases hmn : m = n
    · subst hmn
      rw [hleft.fresh.empty]
      refine iff_of_false (fun hk => hx (hleft.orphan x _ hk).1) fun hk => by cases hk
    · rw [hleft.names m hmn]
  have hreached : ∀ m, fs'.Reached m ↔ fs.Reached m := fun m =>
    or_congr_right (exists_congr fun q => hunder q m)
  have hsame : ∀ m, fs.Reached m → fs'.names m = fs.names m := fun m hm =>
    hleft.names m fun heq => hout (heq ▸ hm)
  refine ⟨?_, fun m k hmk => (hreached m).mpr (h.above m k ((hunder m k).mp hmk)), fun m hm => ?_,
    fun m k hmk => ?_, ?_, fun m x k kind hk hkind y => ?_⟩
  · refine h.tree.mono fun m x k hx hk => ?_
    have hmn : m ≠ n := by
      rintro rfl
      exact hx (hleft.orphan x _ hk).1
    rwa [hleft.names m hmn] at hk
  · have hm := (hreached m).mp hm
    rw [hsame m hm]
    exact h.own m hm
  · have hmk := (hunder m k).mp hmk
    rw [hsame k (.inr ⟨m, hmk⟩)]
    exact h.up m k hmk
  · rw [hsame _ (.inl rfl)]
    exact h.rootUp
  · have hmn : m ≠ n := by
      rintro rfl
      exact hkind (hleft.orphan x _ hk).2
    rw [hleft.names m hmn] at hk
    rw [hleft.names k (hleft.fresh.unnamed m x _ hk)]
    exact h.files m x k kind hk hkind y

/-! ## A new directory -/

/-- The names after a directory was made. -/
theorem names_makeDir {m : Nat} {x : CString} {c : Nat × Nat} (hfresh : fs.Fresh n) (hnp : n ≠ p) :
    (fs.makeDir p name n).names m x = some c ↔
      (m = n ∧ x = dot ∧ c = (n, ext2FtDir)) ∨ (m = n ∧ x = dotDot ∧ c = (p, ext2FtDir)) ∨
      (m = p ∧ x = name ∧ c = (n, ext2FtDir)) ∨
      (m ≠ n ∧ ¬ (m = p ∧ x = name) ∧ fs.names m x = some c) := by
  rw [makeDir, link, link_eq_some, link, link_eq_some, link, link_eq_some]
  have hdots : dot ≠ dotDot := by decide
  by_cases hmn : m = n
  · subst hmn
    rw [hfresh.empty]
    by_cases hx : x = dotDot
    · subst hx
      simp [hnp, hdots.symm]
    · simp [hnp, hx]
  · simp [hmn]
    tauto

theorem Shaped.makeDir (h : fs.Shaped) (hp : fs.Reached p) (hdot : name ∉ dotNames)
    (hfree : fs.names p name = none) (hfresh : fs.Fresh n) : (fs.makeDir p name n).Shaped := by
  have hnp : n ≠ p := fun heq => hfresh.not_reached (heq ▸ hp)
  have hdots : Tree ((fs.link n dot n ext2FtDir).link n dotDot p ext2FtDir).names dotNames ext2FtDir
      ext2RootIno := (h.tree.link_special (.inl rfl) n _).link_special (.inr rfl) n _
  -- the two names of the new directory lead nowhere below
  have hunder₀ : ∀ m k, ((fs.link n dot n ext2FtDir).link n dotDot p ext2FtDir).Under m k →
      fs.Under m k := by
    rintro m k ⟨x, hx, hk⟩
    have hk := (link_eq_some.mp hk).resolve_left fun hand => hx (hand.1.2 ▸ .inr rfl)
    have hk := (link_eq_some.mp hk.2).resolve_left fun hand => hx (hand.1.2 ▸ .inl rfl)
    exact ⟨x, hx, hk.2⟩
  have hunder : ∀ m k, (fs.makeDir p name n).Under m k ↔ (m = p ∧ k = n) ∨ fs.Under m k := by
    intro m k
    constructor
    · rintro ⟨x, hx, hk⟩
      rcases (names_makeDir hfresh hnp).mp hk with
        ⟨-, rfl, -⟩ | ⟨-, rfl, -⟩ | ⟨rfl, -, heq⟩ | ⟨-, -, hk⟩
      · exact absurd (.inl rfl) hx
      · exact absurd (.inr rfl) hx
      · exact .inl ⟨rfl, congrArg Prod.fst heq⟩
      · exact .inr ⟨x, hx, hk⟩
    · rintro (⟨rfl, rfl⟩ | ⟨x, hx, hk⟩)
      · exact ⟨name, hdot, (names_makeDir hfresh hnp).mpr (.inr (.inr (.inl ⟨rfl, rfl, rfl⟩)))⟩
      · refine ⟨x, hx, (names_makeDir hfresh hnp).mpr (.inr (.inr (.inr ⟨?_, ?_, hk⟩)))⟩
        · rintro rfl
          rw [hfresh.empty] at hk
          cases hk
        · rintro ⟨rfl, rfl⟩
          rw [hfree] at hk
          cases hk
  have hreached : ∀ m, (fs.makeDir p name n).Reached m ↔ m = n ∨ fs.Reached m := by
    intro m
    constructor
    · rintro (hroot | ⟨q, hq⟩)
      · exact .inr (.inl hroot)
      · rcases (hunder q m).mp hq with ⟨-, rfl⟩ | hq
        · exact .inl rfl
        · exact .inr (.inr ⟨q, hq⟩)
    · rintro (rfl | hroot | ⟨q, hq⟩)
      · exact .inr ⟨p, (hunder p m).mpr (.inl ⟨rfl, rfl⟩)⟩
      · exact .inl hroot
      · exact .inr ⟨q, (hunder q m).mpr (.inr hq)⟩
  have hold : ∀ m x c, fs.Reached m → x ∈ dotNames → fs.names m x = some c →
      (fs.makeDir p name n).names m x = some c := fun m x c hm hx hc =>
    (names_makeDir hfresh hnp).mpr (.inr (.inr (.inr ⟨fun heq => hfresh.not_reached (heq ▸ hm),
      fun hand => hdot (hand.2 ▸ hx), hc⟩)))
  refine ⟨hdots.link_leaf hfresh.notRoot hnp hdot (fun m hm => ?_) (fun m hm => ?_), fun m k hmk => ?_,
    fun m hm => ?_, fun m k hmk => ?_, hold _ _ _ (.inl rfl) (.inr rfl) h.rootUp,
    fun m x k kind hk hkind y => ?_⟩
  · obtain ⟨x, -, hx⟩ := hunder₀ m n hm
    exact hfresh.unnamed m x _ hx rfl
  · obtain ⟨x, -, hx⟩ := hunder₀ n m hm
    rw [hfresh.empty] at hx
    cases hx
  · rcases (hunder m k).mp hmk with ⟨rfl, -⟩ | hmk
    · exact (hreached m).mpr (.inr hp)
    · exact (hreached m).mpr (.inr (h.above m k hmk))
  · rcases (hreached m).mp hm with rfl | hm
    · exact (names_makeDir hfresh hnp).mpr (.inl ⟨rfl, rfl, rfl⟩)
    · exact hold m dot _ hm (.inl rfl) (h.own m hm)
  · rcases (hunder m k).mp hmk with ⟨rfl, rfl⟩ | hmk
    · exact (names_makeDir hfresh hnp).mpr (.inr (.inl ⟨rfl, rfl, rfl⟩))
    · exact hold k dotDot _ (.inr ⟨m, hmk⟩) (.inr rfl) (h.up m k hmk)
  · rcases (names_makeDir hfresh hnp).mp hk with
      ⟨-, -, heq⟩ | ⟨-, -, heq⟩ | ⟨-, -, heq⟩ | ⟨-, -, hkold⟩
    · exact absurd (congrArg Prod.snd heq) hkind
    · exact absurd (congrArg Prod.snd heq) hkind
    · exact absurd (congrArg Prod.snd heq) hkind
    · refine Option.eq_none_iff_forall_ne_some.mpr fun c hc => ?_
      have hnone := h.files m x k kind hkold hkind
      rcases (names_makeDir hfresh hnp).mp hc with ⟨rfl, -, -⟩ | ⟨rfl, -, -⟩ | ⟨rfl, -, -⟩ | ⟨-, -, hc⟩
      · exact hfresh.unnamed m x _ hkold rfl
      · exact hfresh.unnamed m x _ hkold rfl
      · have hown := h.own k hp
        rw [hnone] at hown
        cases hown
      · rw [hnone] at hc
        cases hc

/-! ## Commands -/

/-- Nothing is named in what a path leads to that is no directory. -/
theorem Shaped.leaf (h : fs.Shaped) (hpath : fs.lookup path = some (n, kind))
    (hkind : kind ≠ ext2FtDir) (y : CString) : fs.names n y = none := by
  obtain ⟨m, x, hname⟩ := exists_name_of_walk hpath
  exact h.files m x n kind hname hkind y

theorem Does.shaped (h : fs.Shaped) (hdoes : fs.Does host cmd fs') : fs'.Shaped := by
  cases hdoes with
  | mkdir hplace hfresh =>
    obtain ⟨hp, hdot⟩ := h.reached_place hplace
    exact h.makeDir hp hdot hplace.free hfresh
  | hardLink hsource hkind hplace =>
    exact h.link (h.reached_place hplace).1 hplace.free (by decide) (h.leaf hsource hkind)
  | symLink hsource hkind hplace hfresh =>
    exact (h.link (h.reached_place hplace).1 hplace.free (by decide) hfresh.empty).setContent _ _
  | copyNew hhost hplace hfresh hkeeps =>
    exact (h.link (h.reached_place hplace).1 hplace.free (by decide) hfresh.empty).setContent _ _
  | copyOver hhost hdest hkind hkeeps => exact h.setContent _ _
  | removeName hpath hkind hparent hmore =>
    exact h.unlink ((lookup_last (ne_nil_of_lookup hparent) hparent).symm.trans hpath) hkind
  | removeFile hpath hkind hparent hlast =>
    exact (h.unlink ((lookup_last (ne_nil_of_lookup hparent) hparent).symm.trans hpath)
      hkind).setContent _ _

theorem Untouched.shaped (h : fs.Shaped) (hsame : fs.Untouched fs') : fs'.Shaped := by
  rcases hsame with rfl | ⟨n, hleft⟩
  · exact h
  · exact h.leftBehind hleft

end

end FileSystem
end Ext2
end OsAssignments
