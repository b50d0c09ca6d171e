import WiiMC.Dav.Client

/-!
# The device `dav1:`

`WebDAVInit` of `webdav_device.c`, `playback_cancelled`, and the operations of the device as far
as they reach the network.

* `webDAVInit`: the callback is installed, then the configuration is loaded.
* `Operation.calls`: an operation passes the callback of the configuration to the transport.
* `webDAVInit_loses_cancel`: the callback that was installed never arrives there.
-/

namespace WiiMC.Dav

open Bytes Http

/-- The two flags that `playback_cancelled` reads. -/
structure Playback where
  playbackCacheReady : Bool
  stopCacheThread : Bool

/-- A `gc_net_cancel_fn`, as a function of the flags. -/
abbrev CancelFn := Playback → Bool

/-- `playback_cancelled`. -/
def playbackCancelled : CancelFn := fun g => g.playbackCacheReady && g.stopCacheThread

/-- The globals of the device. -/
structure Device where
  config : GcDavConfig CancelFn
  lastError : String
  mounted : Bool

/-- `WebDAVInit`. The file system, the outcome of the allocations and that of `AddDevice` are given
from outside. -/
def webDAVInit (files : List UInt8 → Option (List UInt8)) (memory registered : Bool)
    (appPath : List UInt8) (d : Device) : Device :=
  let path := (appPath ++ ascii "/webdav.conf").take 1099
  let installed := { d.config with cancel := some playbackCancelled, cancelOpaque := 0 }
  match gcDavConfigLoad installed (files path) memory with
  | (.error e, config) => { d with config, lastError := e.2 }
  | (.ok (), config) =>
      if registered then { config, lastError := "", mounted := true }
      else { d with config, lastError := "Cannot register dav1:" }

/-- `local_path`. -/
def localPath (path : List UInt8) : List UInt8 :=
  if (ascii "dav1:/").isPrefixOf path then path.drop 5 else path

/-- The operations of the device that use the network. -/
inductive Operation
  | stat (path : List UInt8)
  | list (path : List UInt8)
  | open_ (path : List UInt8)
  /-- A read of a file that was opened on the device. -/
  | read (f : GcDavFile CancelFn) (len : ℤ)

/-- What an operation does to the network. -/
def Operation.run (walk : Walk) (d : Device) (net : Net CancelFn) : Operation → Net CancelFn
  | .stat path => (gcDavStat walk d.config (localPath path) net).2
  | .list path => (gcDavList walk d.config (localPath path) net).2
  | .open_ path => (gcDavOpen walk d.config (localPath path) net).2.2
  | .read f len => (gcDavRead { f with config := d.config } (min len (2 ^ 31 - 1)) net).2.2

section Calls

variable {κ : Type} {walk : Walk} {c : GcDavConfig κ} {net : Net κ}

/-- A call of `gc_net_open` with the callback of the configuration. -/
def Passes (c : GcDavConfig κ) (o : Opened κ) : Prop :=
  o.cancel = c.cancel ∧ o.cancelOpaque = c.cancelOpaque

theorem makeUrl_opened (c : GcDavConfig κ) (path : List UInt8) (cap : ℕ) (net : Net κ) :
    (makeUrl c path cap net).2.opened = net.opened := by
  have hlog := net.alloc_sameLog.1
  unfold makeUrl
  rcases halloc : net.alloc with ⟨_ | _, net'⟩ <;> rw [halloc] at hlog <;> simp only
  · exact hlog
  · split_ifs
    · cases gcHttpEncodePath path.tail gcHttpUrlMax with
      | none => exact hlog
      | some encoded =>
          simp only
          split_ifs <;> exact hlog
    · exact hlog

theorem growXml_opened (used allocated : ℕ) (net : Net κ) :
    (growXml used allocated net).2.opened = net.opened := by
  have hlog := net.alloc_sameLog.1
  unfold growXml
  by_cases hroom : used + 4096 + 1 > allocated
  · rw [if_pos hroom]
    by_cases hmax : allocated ≥ xmlMax
    · rw [if_pos hmax]
    · rw [if_neg hmax]
      rcases halloc : net.alloc with ⟨_ | _, net'⟩ <;> rw [halloc] at hlog <;> exact hlog
  · rw [if_neg hroom]

theorem readXml_opened (fuel : ℕ) (xml : List UInt8) (allocated : ℕ) (h : GcHttp κ) (net : Net κ) :
    (readXml fuel xml allocated h net).2.2.opened = net.opened := by
  induction fuel generalizing xml allocated h net with
  | zero => rfl
  | succ fuel ih =>
      have hlog := growXml_opened xml.length allocated net
      rw [readXml]
      rcases hgrow : growXml xml.length allocated net with ⟨e | allocated', net'⟩ <;>
        rw [hgrow] at hlog <;> simp only
      · exact hlog
      · rcases gcHttpRead h (allocated' - xml.length - 1 : ℕ) with ⟨_ | _ | ⟨b, bs⟩, h'⟩ <;>
          simp only
        · exact hlog
        · exact hlog
        · rw [ih]
          exact hlog

theorem queryBody_opened (walk : Walk) (depth : ℤ) (h : GcHttp κ) (net : Net κ) :
    (queryBody walk depth h net).2.2.opened = net.opened := by
  unfold queryBody
  split_ifs with h207
  · rfl
  · rcases (gcHttpParseUrl h.url).bind fun u => gcHttpDecodePath u.path 2048 with _ | basepath <;>
      simp only
    split_ifs with hvalid
    · rfl
    · have hread := readXml_opened (xmlMax + 1) [] 0 h net
      rcases hxml : readXml (xmlMax + 1) [] 0 h net with ⟨e | xml, h', net'⟩ <;>
        rw [hxml] at hread <;> simp only
      · exact hread
      · split_ifs
        · exact hread
        · cases walk h'.url basepath depth xml with
          | error e => exact hread
          | ok entries =>
              simp only
              split_ifs <;> exact hread

/-- A `PROPFIND` passes the callback of the configuration. -/
theorem query_calls (walk : Walk) (c : GcDavConfig κ) (path : List UInt8) (depth : ℤ) (net : Net κ) :
    Net.Calls (Passes c) net (query walk c path depth net).2 := by
  have halloc : (alloc7 net).2.opened = net.opened := by
    have h₁ := net.alloc3_sameLog.1
    have h₂ := net.alloc3.2.alloc3_sameLog.1
    have h₃ := net.alloc3.2.alloc3.2.alloc_sameLog.1
    exact h₃.trans (h₂.trans h₁)
  unfold query
  rcases h7 : alloc7 net with ⟨_ | _, net₁⟩ <;> rw [h7] at halloc <;> simp only
  · exact .of_eq halloc
  have hurl := makeUrl_opened c path gcHttpUrlMax net₁
  rcases hmake : makeUrl c path gcHttpUrlMax net₁ with ⟨_ | target, net₂⟩ <;> rw [hmake] at hurl <;>
    simp only
  · exact .of_eq (hurl.trans halloc)
  have hopen := (Net.Calls.of_eq (hurl.trans halloc)).trans
    (gcHttpOpen_calls (propfind c depth target) net₂)
  rcases hcall : gcHttpOpen (propfind c depth target) net₂ with ⟨_ | _, h, net₃⟩ <;>
    rw [hcall] at hopen <;> simp only
  · exact hopen
  · exact hopen.trans (.of_eq (queryBody_opened walk depth h net₃))

theorem gcDavStat_calls (walk : Walk) (c : GcDavConfig κ) (path : List UInt8) (net : Net κ) :
    Net.Calls (Passes c) net (gcDavStat walk c path net).2 := by
  have hquery := query_calls walk c path 0 net
  unfold gcDavStat
  rcases hr : query walk c path 0 net with ⟨e | _ | ⟨entry, entries⟩, net'⟩ <;> rw [hr] at hquery <;>
    exact hquery

theorem gcDavOpen_calls (walk : Walk) (c : GcDavConfig κ) (path : List UInt8) (net : Net κ) :
    Net.Calls (Passes c) net (gcDavOpen walk c path net).2.2 := by
  have hstat := gcDavStat_calls walk c path net
  unfold gcDavOpen
  rcases hr : gcDavStat walk c path net with ⟨e | stat, net₁⟩ <;> rw [hr] at hstat <;> simp only
  · exact hstat
  · split_ifs
    · exact hstat
    · have hurl := makeUrl_opened c path gcHttpUrlMax net₁
      rcases hmake : makeUrl c path gcHttpUrlMax net₁ with ⟨_ | target, net₂⟩ <;>
        rw [hmake] at hurl <;> simp only
      · exact hstat.trans (.of_eq hurl)
      · have hlog := net₂.alloc_sameLog.1
        rcases halloc : net₂.alloc with ⟨_ | _, net₃⟩ <;> rw [halloc] at hlog <;>
          exact (hstat.trans (.of_eq hurl)).trans (.of_eq hlog)

/-- A read passes the callback of the configuration, if it opens a connection at all. -/
theorem gcDavRead_calls (f : GcDavFile κ) (len : ℤ) (net : Net κ) :
    Net.Calls (Passes f.config) net (gcDavRead f len net).2.2 := by
  have hdeliver : ∀ (f : GcDavFile κ) (h : GcHttp κ) (net : Net κ),
      (f.deliver h len net).2.2 = net := by
    intro f h net
    unfold GcDavFile.deliver
    rcases gcHttpRead h _ with ⟨_ | _ | ⟨b, bs⟩, h'⟩ <;> rfl
  unfold gcDavRead
  cases f.http with
  | none => exact .of_eq rfl
  | some h =>
      simp only
      split_ifs
      · exact .of_eq rfl
      · rw [hdeliver]
        exact .of_eq rfl
      · have hopen := gcHttpOpen_calls f.get net
        rcases hcall : gcHttpOpen f.get net with ⟨_ | _, h', net'⟩ <;> rw [hcall] at hopen <;>
          simp only
        · exact hopen
        · split_ifs
          · exact hopen
          · rw [hdeliver]
            exact hopen

end Calls

/-- An operation of the device passes the callback of its configuration to the transport. -/
theorem Operation.calls (walk : Walk) (d : Device) (net : Net CancelFn) (op : Operation) :
    Net.Calls (Passes d.config) net (op.run walk d net) := by
  cases op with
  | stat path => exact gcDavStat_calls walk d.config _ net
  | list path => exact query_calls walk d.config _ 1 net
  | open_ path => exact gcDavOpen_calls walk d.config _ net
  | read f len => exact gcDavRead_calls { f with config := d.config } _ net

/-- Whether the device is mounted or not, `WebDAVInit` leaves no callback in the configuration. -/
theorem webDAVInit_cancel (files : List UInt8 → Option (List UInt8)) (memory registered : Bool)
    (appPath : List UInt8) (d : Device) :
    (webDAVInit files memory registered appPath d).config.cancel = none ∧
      (webDAVInit files memory registered appPath d).config.cancelOpaque = 0 := by
  have hcancel := gcDavConfigLoad_cancel
    { d.config with cancel := some playbackCancelled, cancelOpaque := 0 }
    (files ((appPath ++ ascii "/webdav.conf").take 1099)) memory
  unfold webDAVInit
  simp only
  rcases hload : gcDavConfigLoad _ (files ((appPath ++ ascii "/webdav.conf").take 1099)) memory with
    ⟨e | _, config⟩ <;> rw [hload] at hcancel <;> simp only
  · exact hcancel
  · split_ifs <;> exact hcancel

/-- Cancellation reaches the device: the callback is where `WebDAVInit` has put it, and every
operation passes to the transport one that answers `playback_cancelled`. -/
def CancelReaches (d : Device) : Prop :=
  (d.config.cancel = some playbackCancelled ∧ d.config.cancelOpaque = 0) ∧
    ∀ walk net (op : Operation), Net.Calls
      (fun o => ∃ fn, o.cancel = some fn ∧ ∀ g, fn g = playbackCancelled g) net
      (op.run walk d net)

/-- For no configuration file does cancellation reach the device: `WebDAVInit` leaves it without
a callback, and every operation passes none. -/
theorem webDAVInit_loses_cancel (files : List UInt8 → Option (List UInt8))
    (memory registered : Bool) (appPath : List UInt8) (d : Device) :
    ¬ CancelReaches (webDAVInit files memory registered appPath d) ∧
    ∀ walk net (op : Operation), Net.Calls (fun o => o.cancel = none) net
      (op.run walk (webDAVInit files memory registered appPath d) net) := by
  obtain ⟨hcancel, -⟩ := webDAVInit_cancel files memory registered appPath d
  constructor
  · rintro ⟨⟨hinstalled, -⟩, -⟩
    rw [hcancel] at hinstalled
    cases hinstalled
  · intro walk net op
    obtain ⟨calls, heq, hcalls⟩ :=
      op.calls walk (webDAVInit files memory registered appPath d) net
    exact ⟨calls, heq, fun o ho => (hcalls o ho).1.trans hcancel⟩

/-- The device with a configuration file of one line. -/
def sampleDevice : Device :=
  webDAVInit (fun _ => some (ascii "url = http://192.168.1.2/music\n")) true true (ascii "sd:/apps")
    { config := GcDavConfig.zero CancelFn, lastError := "", mounted := false }

/-- The device is mounted, and its first request asks no callback. -/
theorem sampleDevice_stat :
    sampleDevice.mounted = true ∧ ¬ CancelReaches sampleDevice ∧
    ((Operation.stat (ascii "dav1:/a.mp3")).run (fun _ _ _ _ => .ok []) sampleDevice
      { dials := [], allocs := [], opened := [], closed := [] }).opened.map
        (fun o => (o.host, o.cancel.isSome)) = [(ascii "192.168.1.2", false)] := by
  refine ⟨by decide +kernel, ?_, by decide +kernel⟩
  rintro ⟨⟨hinstalled, -⟩, -⟩
  have hnone : sampleDevice.config.cancel.isSome = false := by decide +kernel
  rw [hinstalled] at hnone
  cases hnone

end WiiMC.Dav
