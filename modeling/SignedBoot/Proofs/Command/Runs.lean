import Mathlib
import SignedBoot.Command.Create
import SignedBoot.Command.Verify
import SignedBoot.Proofs.Command.Files
import SignedBoot.Proofs.Keys.Documents

/-!
# Commands on a file system

When a command succeeds, and what files it leaves: a chain of steps is taken apart at its first step
(`Command.runOn_bind_eq_ok_iff`), what only reads leaves the files as they are, and each command
succeeds exactly when all of its parts do. The file system is any at all.
-/

namespace SignedBoot

namespace Command

/-- The result of a command that starts on the files of a file system, and the files it leaves. -/
def runOn {σ α : Type} (t : σ) (x : ExceptT CommandFault (StateM σ) α) :
    Except CommandFault α × σ :=
  StateT.run (ExceptT.run x) t

variable {σ α β : Type} {store : FileStore σ} {t u : σ}

/-! ### Steps -/

theorem runOn_bind_eq_ok_iff {x : ExceptT CommandFault (StateM σ) α}
    {k : α → ExceptT CommandFault (StateM σ) β} {b : β} :
    runOn t (x >>= k) = (.ok b, u) ↔
      ∃ a s, runOn t x = (.ok a, s) ∧ runOn s (k a) = (.ok b, u) := by
  have hbind : runOn t (x >>= k) =
      match runOn t x with
      | (.ok a, s) => runOn s (k a)
      | (.error f, s) => (.error f, s) := by
    change StateT.run (StateT.bind (ExceptT.run x) (ExceptT.bindCont k)) t = _
    rw [StateT.run]
    change (match runOn t x with | (r, s) => (ExceptT.bindCont k r) s) = _
    rcases runOn t x with ⟨_ | _, s⟩ <;> rfl
  rw [hbind]
  rcases runOn t x with ⟨f | a, s⟩
  · simp
  · simp

theorem runOn_pure_eq_ok_iff {a b : α} : runOn t (pure a) = (.ok b, u) ↔ a = b ∧ t = u := by
  change ((Except.ok a : Except CommandFault α), t) = (.ok b, u) ↔ _
  rw [Prod.mk.injEq, Except.ok.injEq]

theorem runOn_throw_eq_ok_iff {f : CommandFault} {a : α} :
    runOn t (throw f) = (.ok a, u) ↔ False := by
  change ((Except.error f : Except CommandFault α), t) = (.ok a, u) ↔ _
  simp

theorem runOn_except_eq_ok_iff {x : Except CommandFault α} {a : α} :
    runOn t (liftM x) = (.ok a, u) ↔ x = .ok a ∧ t = u := by
  change (x, t) = (.ok a, u) ↔ _
  rw [Prod.mk.injEq]

theorem runOn_read (path : String) :
    runOn t (liftM (store.access.read path)) = (.ok (store.read? t path), t) := rfl

theorem runOn_write_eq_ok_iff {path : String} {contents : Bytes} {written : Bool} :
    runOn t (liftM (store.access.write path contents)) = (.ok written, u) ↔
      store.write t path contents = (written, u) := by
  change ((Except.ok (store.write t path contents).1 : Except CommandFault Bool),
    (store.write t path contents).2) = (.ok written, u) ↔ _
  rw [Prod.mk.injEq, Except.ok.injEq, Prod.ext_iff]

theorem runOn_require_eq_ok_iff {path : String} {f : CommandFault} {contents : Bytes} :
    runOn t (store.access.require path f) = (.ok contents, u) ↔
      store.read? t path = some contents ∧ t = u := by
  simp only [FileAccess.require, runOn_bind_eq_ok_iff, runOn_read, Prod.mk.injEq, Except.ok.injEq]
  constructor
  · rintro ⟨read, s, ⟨rfl, rfl⟩, h⟩
    split at h
    · rename_i found hread
      obtain ⟨rfl, rfl⟩ := runOn_pure_eq_ok_iff.mp h
      exact ⟨hread, rfl⟩
    · exact (runOn_throw_eq_ok_iff.mp h).elim
  · rintro ⟨hread, rfl⟩
    exact ⟨_, t, ⟨hread, rfl⟩, rfl⟩

theorem runOn_requireText_eq_ok_iff {path : String} {f : CommandFault} {text : String} :
    runOn t (store.access.requireText path f) = (.ok text, u) ↔
      store.text? t path = some text ∧ t = u := by
  simp only [FileAccess.requireText, runOn_bind_eq_ok_iff, runOn_require_eq_ok_iff]
  constructor
  · rintro ⟨contents, s, ⟨hread, rfl⟩, h⟩
    split at h
    · rename_i found htext
      obtain ⟨rfl, rfl⟩ := runOn_pure_eq_ok_iff.mp h
      exact ⟨Option.bind_eq_some_iff.mpr ⟨contents, hread, htext⟩, rfl⟩
    · exact (runOn_throw_eq_ok_iff.mp h).elim
  · rintro ⟨htext, rfl⟩
    obtain ⟨contents, hread, htext⟩ := Option.bind_eq_some_iff.mp htext
    refine ⟨contents, t, ⟨hread, rfl⟩, ?_⟩
    rw [htext]
    rfl

end Command

namespace FileStore

variable {σ : Type} {store : FileStore σ} {t : σ}

/-! ### Documents -/

/-- A configuration document in a file. -/
def HoldsSettings (store : FileStore σ) (t : σ) (path : String) (settings : Settings) : Prop :=
  ∃ text, store.text? t path = some text ∧ Settings.parse text (Path.parent path) = .ok settings

def HoldsPublicKey (store : FileStore σ) (t : σ) (path : String) (key : PublicKey) : Prop :=
  ∃ text, store.text? t path = some text ∧ PublicKey.ofPem? text.toUTF8.toList = some key

def HoldsPrivateKey (store : FileStore σ) (t : σ) (path : String) (key : PrivateKey) : Prop :=
  ∃ text, store.text? t path = some text ∧ PrivateKey.ofPem? text.toUTF8.toList = some key

theorem holdsSettings_of_read? {path text : String} {settings : Settings}
    (h : store.read? t path = some text.toUTF8.toList)
    (hparse : Settings.parse text (Path.parent path) = .ok settings) :
    store.HoldsSettings t path settings := by
  refine ⟨text, ?_, hparse⟩
  rw [text?, h]
  exact textOf?_toUTF8 text

theorem holdsPublicKey_of_read? {path : String} {key : PublicKey}
    (h : store.read? t path = some key.document) : store.HoldsPublicKey t path key := by
  obtain ⟨text, htext⟩ := exists_textOf? fun _ => key.lt_of_mem_document
  refine ⟨text, ?_, ?_⟩
  · rw [text?, h]
    exact htext
  · rw [toList_toUTF8_of_textOf? htext, key.ofPem?_document]

theorem holdsPrivateKey_of_read? {path : String} {key : PrivateKey}
    (h : store.read? t path = some key.document)
    (hbits : ∀ n ∈ key.numbers, bitLength n ≤ 0x100000) : store.HoldsPrivateKey t path key := by
  obtain ⟨text, htext⟩ := exists_textOf? fun _ => key.lt_of_mem_document
  refine ⟨text, ?_, ?_⟩
  · rw [text?, h]
    exact htext
  · rw [toList_toUTF8_of_textOf? htext, PrivateKey.ofPem?_document hbits]

theorem HoldsSettings.unique {path : String} {settings settings' : Settings}
    (h : store.HoldsSettings t path settings) (h' : store.HoldsSettings t path settings') :
    settings = settings' := by
  obtain ⟨text, htext, hparse⟩ := h
  obtain ⟨text', htext', hparse'⟩ := h'
  obtain rfl := Option.some.inj (htext.symm.trans htext')
  exact Except.ok.inj (hparse.symm.trans hparse')

theorem HoldsPrivateKey.unique {path : String} {key key' : PrivateKey}
    (h : store.HoldsPrivateKey t path key) (h' : store.HoldsPrivateKey t path key') :
    key = key' := by
  obtain ⟨text, htext, hkey⟩ := h
  obtain ⟨text', htext', hkey'⟩ := h'
  obtain rfl := Option.some.inj (htext.symm.trans htext')
  exact Option.some.inj (hkey.symm.trans hkey')

end FileStore

namespace Command

variable {σ : Type} {store : FileStore σ} {t u : σ}

theorem runOn_loadSettings_eq_ok_iff {path : String} {settings : Settings} :
    runOn t (store.access.loadSettings path) = (.ok settings, u) ↔
      store.HoldsSettings t path settings ∧ t = u := by
  simp only [FileAccess.loadSettings, runOn_bind_eq_ok_iff, runOn_requireText_eq_ok_iff]
  constructor
  · rintro ⟨text, s, ⟨htext, rfl⟩, h⟩
    split at h
    · rename_i found hparse
      obtain ⟨rfl, rfl⟩ := runOn_pure_eq_ok_iff.mp h
      exact ⟨⟨text, htext, hparse⟩, rfl⟩
    · exact (runOn_throw_eq_ok_iff.mp h).elim
  · rintro ⟨⟨text, htext, hparse⟩, rfl⟩
    refine ⟨text, t, ⟨htext, rfl⟩, ?_⟩
    rw [hparse]
    rfl

theorem runOn_loadPublicKey_eq_ok_iff {path : String} {image : ImageKey} :
    runOn t (store.access.loadPublicKey path) = (.ok image, u) ↔
      (∃ key, store.HoldsPublicKey t path key ∧
        ImageKey.ofParts key.modulus key.exponent = .ok image) ∧ t = u := by
  simp only [FileAccess.loadPublicKey, runOn_bind_eq_ok_iff, runOn_requireText_eq_ok_iff]
  constructor
  · rintro ⟨text, s, ⟨htext, rfl⟩, h⟩
    split at h
    · exact (runOn_throw_eq_ok_iff.mp h).elim
    rename_i key hkey
    split at h
    · rename_i found himage
      obtain ⟨rfl, rfl⟩ := runOn_pure_eq_ok_iff.mp h
      exact ⟨⟨key, ⟨text, htext, hkey⟩, himage⟩, rfl⟩
    · exact (runOn_throw_eq_ok_iff.mp h).elim
  · rintro ⟨⟨key, ⟨text, htext, hkey⟩, himage⟩, rfl⟩
    refine ⟨text, t, ⟨htext, rfl⟩, ?_⟩
    simp only [hkey, himage]
    rfl

theorem runOn_loadSigningKey_eq_ok_iff {path : String} {k : SigningKey} :
    runOn t (store.access.loadSigningKey path) = (.ok k, u) ↔
      (∃ key, store.HoldsPrivateKey t path key ∧ SigningKey.ofPrivate key = .ok k) ∧ t = u := by
  simp only [FileAccess.loadSigningKey, runOn_bind_eq_ok_iff, runOn_requireText_eq_ok_iff]
  constructor
  · rintro ⟨text, s, ⟨htext, rfl⟩, h⟩
    split at h
    · exact (runOn_throw_eq_ok_iff.mp h).elim
    rename_i key hkey
    split at h
    · rename_i found hsigning
      obtain ⟨rfl, rfl⟩ := runOn_pure_eq_ok_iff.mp h
      exact ⟨⟨key, ⟨text, htext, hkey⟩, hsigning⟩, rfl⟩
    · exact (runOn_throw_eq_ok_iff.mp h).elim
  · rintro ⟨⟨key, ⟨text, htext, hkey⟩, hsigning⟩, rfl⟩
    refine ⟨text, t, ⟨htext, rfl⟩, ?_⟩
    simp only [hkey, hsigning]
    rfl

/-! ### Creating -/

/-- An image that is made of files and written into one. -/
structure Creates (store : FileStore σ) (t : σ) (salt : Block 32) (config payload out : String)
    (settings : Settings) (key : PrivateKey) (g : GeneratedImage) (u : σ) : Prop where
  config : store.HoldsSettings t config settings
  signing : ∃ file, settings.privateKey = some file ∧
    store.HoldsPrivateKey t (settings.path file) key
  generated : ∃ contents k, store.read? t payload = some contents ∧
    SigningKey.ofPrivate key = .ok k ∧ (Recipe.ofPayload contents).generate
      (.ofSigningKey k (.ofMode salt settings.policy.mode)) = .ok g
  written : store.write t out g.image.encode = (true, u)

theorem runOn_create_eq_ok_iff {salt : Block 32} {args : Arguments} {output : String} :
    runOn t (create store.access salt args) = (.ok output, u) ↔ output = "" ∧
      ∃ config payload out settings key g, args.require "config" = .ok config ∧
        args.require "payload" = .ok payload ∧ args.require "out" = .ok out ∧
        Creates store t salt config payload out settings key g u := by
  simp only [create, runOn_bind_eq_ok_iff, runOn_except_eq_ok_iff, runOn_loadSettings_eq_ok_iff]
  constructor
  · rintro ⟨config, s, ⟨hconfig, rfl⟩, payload, s, ⟨hpayload, rfl⟩, out, s, ⟨hout, rfl⟩, settings,
      s, ⟨hsettings, rfl⟩, h⟩
    rcases hfile : settings.privateKey with _ | file <;> simp only [hfile] at h
    · exact (runOn_throw_eq_ok_iff.mp h).elim
    simp only [runOn_bind_eq_ok_iff, runOn_loadSigningKey_eq_ok_iff, runOn_require_eq_ok_iff] at h
    obtain ⟨k, s, ⟨⟨key, hkey, hk⟩, rfl⟩, contents, s, ⟨hread, rfl⟩, h⟩ := h
    split at h
    · exact (runOn_throw_eq_ok_iff.mp h).elim
    rename_i g hg
    obtain ⟨written, s, hwrite, h⟩ := runOn_bind_eq_ok_iff.mp h
    cases written with
    | false => exact (runOn_throw_eq_ok_iff.mp h).elim
    | true =>
      obtain ⟨rfl, rfl⟩ := runOn_pure_eq_ok_iff.mp h
      exact ⟨rfl, config, payload, out, settings, key, g, hconfig, hpayload, hout, hsettings,
        ⟨file, hfile, hkey⟩, ⟨contents, k, hread, hk, hg⟩, runOn_write_eq_ok_iff.mp hwrite⟩
  · rintro ⟨rfl, config, payload, out, settings, key, g, hconfig, hpayload, hout, hsettings,
      ⟨file, hfile, hkey⟩, ⟨contents, k, hread, hk, hg⟩, hwritten⟩
    refine ⟨config, t, ⟨hconfig, rfl⟩, payload, t, ⟨hpayload, rfl⟩, out, t, ⟨hout, rfl⟩, settings,
      t, ⟨hsettings, rfl⟩, ?_⟩
    simp only [hfile, runOn_bind_eq_ok_iff, runOn_loadSigningKey_eq_ok_iff, runOn_require_eq_ok_iff]
    refine ⟨k, t, ⟨⟨key, hkey, hk⟩, rfl⟩, contents, t, ⟨hread, rfl⟩, ?_⟩
    simp only [hg, runOn_bind_eq_ok_iff]
    exact ⟨true, u, runOn_write_eq_ok_iff.mpr hwritten, rfl⟩

/-! ### Verifying -/

/-- The key that a configuration pins: that of its public key document with the signature stage on,
and none with it off. -/
inductive Pinned (store : FileStore σ) (t : σ) (s : Settings) : Option ImageKey → Prop
  | signed {file : String} {key : PublicKey} {image : ImageKey}
      (hstage : s.policy.signatureStage = true) (hfile : s.policy.publicKey = some file)
      (hkey : store.HoldsPublicKey t (s.path file) key)
      (himage : ImageKey.ofParts key.modulus key.exponent = .ok image) :
      Pinned store t s (some image)
  | unsigned (hstage : s.policy.signatureStage = false) : Pinned store t s none

theorem runOn_pinnedKey_eq_ok_iff {s : Settings} {key : Option ImageKey} :
    runOn t (pinnedKey store.access s) = (.ok key, u) ↔ Pinned store t s key ∧ t = u := by
  unfold pinnedKey
  constructor
  · intro h
    split at h
    · rename_i hstage
      split at h
      · rename_i file hfile
        simp only [runOn_bind_eq_ok_iff, runOn_loadPublicKey_eq_ok_iff] at h
        obtain ⟨image, s', ⟨⟨key, hkey, himage⟩, rfl⟩, h⟩ := h
        obtain ⟨rfl, rfl⟩ := runOn_pure_eq_ok_iff.mp h
        exact ⟨.signed hstage hfile hkey himage, rfl⟩
      · exact (runOn_throw_eq_ok_iff.mp h).elim
    · rename_i hstage
      obtain ⟨rfl, rfl⟩ := runOn_pure_eq_ok_iff.mp h
      exact ⟨.unsigned (Bool.eq_false_iff.mpr hstage), rfl⟩
  · rintro ⟨hpinned, rfl⟩
    cases hpinned with
    | signed hstage hfile hkey himage =>
      simp only [hstage, if_true, hfile, runOn_bind_eq_ok_iff, runOn_loadPublicKey_eq_ok_iff]
      exact ⟨_, t, ⟨⟨_, hkey, himage⟩, rfl⟩, rfl⟩
    | unsigned hstage =>
      simp only [hstage, Bool.false_eq_true, if_false]
      rfl

theorem Pinned.unique {s : Settings} {key key' : Option ImageKey} (h : Pinned store t s key)
    (h' : Pinned store t s key') : key = key' := by
  have hrun := runOn_pinnedKey_eq_ok_iff.mpr ⟨h, rfl⟩
  rw [runOn_pinnedKey_eq_ok_iff.mpr ⟨h', rfl⟩] at hrun
  exact (Except.ok.inj (Prod.mk.inj hrun).1).symm

/-- An image in a file that passes under a configuration. -/
structure Verifies (store : FileStore σ) (t : σ) (config image : String) (settings : Settings)
    (r : VerifiedImage) : Prop where
  config : store.HoldsSettings t config settings
  passes : ∃ key expected contents, Pinned store t settings key ∧
    expectation settings.policy = .ok expected ∧ store.read? t image = some contents ∧
    ((BootVerifier.ofPolicy (policy settings.policy key expected)).loadAndVerify Storage.memory
      contents settings.carrier contents.length .quiet).1 = .ok r

theorem runOn_verify_eq_ok_iff {args : Arguments} {output : String} :
    runOn t (verify store.access args) = (.ok output, u) ↔ t = u ∧
      ∃ config image settings r, args.require "config" = .ok config ∧
        args.require "image" = .ok image ∧ Verifies store t config image settings r ∧
        output = Listing.text (report r) := by
  simp only [verify, runOn_bind_eq_ok_iff, runOn_except_eq_ok_iff,
    runOn_loadSettings_eq_ok_iff, runOn_pinnedKey_eq_ok_iff, runOn_require_eq_ok_iff]
  constructor
  · rintro ⟨config, s, ⟨hconfig, rfl⟩, image, s, ⟨himage, rfl⟩, settings, s, ⟨hsettings, rfl⟩, key,
      s, ⟨hkey, rfl⟩, expected, s, ⟨hexpected, rfl⟩, contents, s, ⟨hread, rfl⟩, h⟩
    split at h
    · rename_i r hr
      obtain ⟨rfl, rfl⟩ := runOn_pure_eq_ok_iff.mp h
      exact ⟨rfl, config, image, settings, r, hconfig, himage,
        ⟨hsettings, key, expected, contents, hkey, hexpected, hread, hr⟩, rfl⟩
    · exact (runOn_throw_eq_ok_iff.mp h).elim
  · rintro ⟨rfl, config, image, settings, r, hconfig, himage,
      ⟨hsettings, key, expected, contents, hkey, hexpected, hread, hr⟩, rfl⟩
    refine ⟨config, t, ⟨hconfig, rfl⟩, image, t, ⟨himage, rfl⟩, settings, t, ⟨hsettings, rfl⟩, key,
      t, ⟨hkey, rfl⟩, expected, t, ⟨hexpected, rfl⟩, contents, t, ⟨hread, rfl⟩, ?_⟩
    rw [hr]
    rfl

end Command

end SignedBoot
