import Rollcall.Etcd.Client
import Rollcall.Memory
import Rollcall.Scripted

/-!
The backends there are, as one. A provider is a backend of some kind; its site is
the provider with the etcd server, which all clients share.
-/

namespace Rollcall

inductive Provider where
  | memory (m : Memory)
  | scripted (s : Scripted)
  | etcd (c : Etcd.Client)
deriving DecidableEq

structure Site where
  server : Etcd.Server
  provider : Provider
deriving DecidableEq

namespace Provider

instance : Inhabited Provider := ⟨.scripted .create⟩

def kind : Provider → String
  | .memory _ => "memory"
  | .scripted _ => "scripted"
  | .etcd _ => "etcd"

def channels : Provider → Channels
  | .memory m => m.store.channels
  | .scripted s => s.channels
  | .etcd c => c.channels

def setChannels (channels : Channels) : Provider → Provider
  | .memory m => .memory { m with store := { m.store with channels } }
  | .scripted s => .scripted { s with channels }
  | .etcd c => .etcd { c with channels }

/-- All that waits on a channel, and whether more can come. -/
def drain (id : Nat) (p : Provider) : Option (List Event × Bool) × Provider :=
  let (found, channels) := p.channels.drain id
  (found, p.setChannels channels)

end Provider

namespace Site

/-- Makes a call of whichever backend stands here. -/
def call {α : Type} (now : Instant) (operation : (σ : Type) → Backend σ → Call σ α) :
    Call Site α :=
  .of (fun site =>
    match site.provider with
    | .memory m =>
        let (answer, m) := (operation Memory (Memory.backend now)).exec m
        (answer, { site with provider := .memory m })
    | .scripted s =>
        let (answer, s) := (operation Scripted Scripted.backend).exec s
        (answer, { site with provider := .scripted s })
    | .etcd client =>
        let (answer, link) :=
          (operation Etcd.Link (Etcd.Link.backend now)).exec ⟨site.server, client⟩
        (answer, ⟨link.server, .etcd link.client⟩))

def close (site : Site) : Site :=
  match site.provider with
  | .memory m => { site with provider := .memory m.close }
  | .scripted s => { site with provider := .scripted (Scripted.backend.close s) }
  | .etcd client =>
      let link := Etcd.Link.close ⟨site.server, client⟩
      ⟨link.server, .etcd link.client⟩

def receive (id : Nat) (site : Site) : Received × Site :=
  let (found, channels) := site.provider.channels.receive id
  (found, { site with provider := site.provider.setChannels channels })

def dropWatch (id : Nat) (site : Site) : Site :=
  { site with provider := site.provider.setChannels (site.provider.channels.drop id) }

def backend (kind : String) (now : Instant) : Backend Site where
  kind := kind
  set key value ttl := call now (fun _ b => b.set key value ttl)
  get scope := call now (fun _ b => b.get scope)
  delete key := call now (fun _ b => b.delete key)
  increment key := call now (fun _ b => b.increment key)
  watch scope version := call now (fun _ b => b.watch scope version)
  keepAlive key value ttl := call now (fun _ b => b.keepAlive key value ttl)
  close := close
  receive := receive
  dropWatch := dropWatch

/-- Every background job that is ready takes one turn. -/
def turn (now : Instant) (site : Site) : Site :=
  match site.provider with
  | .memory m => { site with provider := .memory (m.turn now) }
  | .scripted _ => site
  | .etcd client =>
      let link := Etcd.Link.turn now ⟨site.server, client⟩
      ⟨link.server, .etcd link.client⟩

def anyReady (now : Instant) (site : Site) : Bool :=
  match site.provider with
  | .memory m => m.jobs.any (m.isReady now)
  | .scripted _ => false
  | .etcd client => Etcd.Link.anyReady now ⟨site.server, client⟩

/-- When background jobs want to be woken. -/
def wakeTimes (site : Site) : List Instant :=
  match site.provider with
  | .memory m => m.wakeTimes
  | .scripted _ => []
  | .etcd client => Etcd.Link.wakeTimes ⟨site.server, client⟩

end Site

end Rollcall
