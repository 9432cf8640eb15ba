/-!
What can go wrong, as causes. Each error has a code; the code fixes its
category, whether a caller may try again, and the RPC status it becomes. The
wording stands in `Error.message` alone.
-/

namespace Rollcall

inductive ErrorCategory where
  | connection
  | discovery
  | backend
  | system
  | serialization
deriving DecidableEq, Repr

def ErrorCategory.all : List ErrorCategory :=
  [.connection, .discovery, .backend, .system, .serialization]

def ErrorCategory.name : ErrorCategory → String
  | .connection => "CONNECTION"
  | .discovery => "DISCOVERY"
  | .backend => "BACKEND"
  | .system => "SYSTEM"
  | .serialization => "SERIALIZATION"

inductive ErrorCode where
  | connectionFailed
  | noConnectionAvailable
  | serviceUnavailable
  | invalidTarget
  | backendError
  | backendClosed
  | watchFailed
  | configurationError
  | codecError
deriving DecidableEq, Repr

namespace ErrorCode

def all : List ErrorCode :=
  [.connectionFailed, .noConnectionAvailable, .serviceUnavailable, .invalidTarget,
    .backendError, .backendClosed, .watchFailed, .configurationError, .codecError]

/-- Codes of one kind share a block of a thousand numbers. -/
def number : ErrorCode → Nat
  | .connectionFailed => 1000
  | .noConnectionAvailable => 1001
  | .serviceUnavailable => 2000
  | .invalidTarget => 2001
  | .backendError => 3000
  | .backendClosed => 3001
  | .watchFailed => 3002
  | .configurationError => 6000
  | .codecError => 8000

def ofNumber? (n : Nat) : Option ErrorCode :=
  all.find? (fun code => code.number = n)

theorem ofNumber?_number (code : ErrorCode) : ofNumber? code.number = some code := by
  cases code <;> rfl

def name : ErrorCode → String
  | .connectionFailed => "CONNECTION_FAILED"
  | .noConnectionAvailable => "NO_CONNECTION_AVAILABLE"
  | .serviceUnavailable => "SERVICE_UNAVAILABLE"
  | .invalidTarget => "INVALID_TARGET"
  | .backendError => "BACKEND_ERROR"
  | .backendClosed => "BACKEND_CLOSED"
  | .watchFailed => "WATCH_FAILED"
  | .configurationError => "CONFIGURATION_ERROR"
  | .codecError => "CODEC_ERROR"

def category : ErrorCode → ErrorCategory
  | .connectionFailed | .noConnectionAvailable => .connection
  | .serviceUnavailable | .invalidTarget => .discovery
  | .backendError | .backendClosed | .watchFailed => .backend
  | .configurationError => .system
  | .codecError => .serialization

def isRetryable : ErrorCode → Bool
  | .connectionFailed | .noConnectionAvailable | .serviceUnavailable => true
  | _ => false

end ErrorCode

/-- The RPC statuses that errors become. -/
inductive RpcCode where
  | invalidArgument
  | internal
  | unavailable
deriving DecidableEq, Repr

def RpcCode.number : RpcCode → Nat
  | .invalidArgument => 3
  | .internal => 13
  | .unavailable => 14

def ErrorCode.rpc : ErrorCode → RpcCode
  | .serviceUnavailable | .noConnectionAvailable | .connectionFailed | .backendClosed =>
      .unavailable
  | .invalidTarget => .invalidArgument
  | .configurationError | .backendError | .watchFailed | .codecError => .internal

inductive Error where
  | backend (operation reason : String)
  | closed
  | watch (key reason : String)
  | codec (reason : String)
  | unavailable (selector : String)
  | noReadyConnection
  | invalidTarget (target reason : String)
  | connect (target reason : String)
  | config (reason : String)
deriving DecidableEq, Repr

namespace Error

def message : Error → String
  | .backend operation reason => "后端错误 [" ++ operation ++ "] " ++ reason
  | .closed => "后端已关闭"
  | .watch key reason => "监听失败 " ++ key ++ ": " ++ reason
  | .codec reason => "编解码错误: " ++ reason
  | .unavailable selector => "服务不可用: " ++ selector
  | .noReadyConnection => "没有可用的子连接"
  | .invalidTarget target reason => "无效的目标 " ++ target ++ ": " ++ reason
  | .connect target reason => "连接 " ++ target ++ " 失败: " ++ reason
  | .config reason => "配置错误: " ++ reason

def code : Error → ErrorCode
  | .backend .. => .backendError
  | .closed => .backendClosed
  | .watch .. => .watchFailed
  | .codec _ => .codecError
  | .unavailable _ => .serviceUnavailable
  | .noReadyConnection => .noConnectionAvailable
  | .invalidTarget .. => .invalidTarget
  | .connect .. => .connectionFailed
  | .config _ => .configurationError

/-- A malformed target or setting stays malformed however often it is tried. -/
def isFatal : Error → Bool
  | .invalidTarget .. | .config _ => true
  | _ => false

def isRetryable (e : Error) : Bool := e.code.isRetryable

end Error

/-- What an RPC caller sees of an error: the status, the text, and the error's
own number as a metadata value. -/
structure RpcStatus where
  code : RpcCode
  message : String
  errorCode : String
deriving DecidableEq, Repr

def Error.status (e : Error) : RpcStatus :=
  ⟨e.code.rpc, e.message, toString e.code.number⟩

end Rollcall
