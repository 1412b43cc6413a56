import ThreadJs.Lib.Js.CString
import ThreadJs.Lib.Js.Lines
import ThreadJs.Template.Parse

/-!
The texts of which the source of a thread is made: `thread-warp.js`, and the files that
`main-warp.js` puts into it. Each line of them is plain (`plain_files`).
-/

namespace ThreadJs.Warp

open Template

/-- A text of lines. -/
def fileText (lines : List String) : Text := lines.flatMap fun l => units l ++ [0x0A]

namespace Files

/-- `fn-proxy.js` -/
def fnProxy : List String :=
  ["var id = 0;",
   "",
   "function __createFunctionProxy(namespace, name, argc, has_ret, _multiple) \x7b",
   "  var bind = thread;",
   "  if (namespace) \x7b",
   "    bind = thread[namespace];",
   "    if (!bind) \x7b",
   "      bind = thread[namespace] = \x7b\x7d;",
   "    \x7d",
   "  \x7d",
   "  if (bind[name]) \x7b",
   "    bind.send('warn', 'function replased:' + name);",
   "  \x7d",
   "",
   "  if (argc >=0 && has_ret) \x7b",
   "    argc += 1;",
   "  \x7d",
   "",
   "  bind[name] = function() \x7b",
   "    if(argc >=0 && argc != arguments.length) \x7b",
   "      throw new Error('must ' + argc + ' arguments');",
   "    \x7d",
   "    var retid = 0;",
   "    var len = arguments.length;",
   "",
   "    if (has_ret) \x7b",
   "      --len;",
   "      var _cb = arguments[len];",
   "      if (typeof _cb !== 'function') \x7b",
   "        throw new Error('last arg must function');",
   "      \x7d",
   "      delete arguments[len];",
   "      retid = ++id;",
   "",
   "      var cFn = _multiple ? 'on' : 'once';",
   "      var key = '__function_back_call_' + retid;",
   "      thread[cFn](key, function(data) \x7b",
   "        _cb(data.err, data.ret, unbind);",
   "      \x7d);",
   "",
   "      function unbind() \x7b",
   "        thread.off(key);",
   "      \x7d",
   "    \x7d",
   "",
   "    thread.send('__direct_call_obj_func', \x7b",
   "      ns   : namespace,",
   "      name : name,",
   "      args : arguments,",
   "      len  : len,",
   "      rid  : retid,",
   "    \x7d);",
   "  \x7d;",
   "\x7d"]

/-- `context.js` -/
def context : List String :=
  ["",
   "if (exports) \x7b",
   "  exports.wrap_context = wrap_context;",
   "\x7d",
   "",
   "//",
   "// 返回的对象可以进行消息操作",
   "//",
   "function wrap_context(thread_context, event) \x7b",
   "  var NO_NAME = '<anonymous>';",
   "  var type_constructor = [];",
   "",
   "  thread_context._recv      = _recv;",
   "  thread_context.noListener = noListener;",
   "",
   "  var warp = \x7b",
   "    CONSTRUCTORS        : \x7b\x7d,",
   "    threadId            : thread_context._t_id,",
   "    on                  : on,",
   "    off                 : off,",
   "    offall              : offall,",
   "    once                : once,",
   "    send                : send,",
   "    send_error          : send_error,",
   "    emit                : emit,",
   "    wait                : wait,",
   "    eval                : eval,",
   "    create_context      : create_context,",
   "    runMicrotasks       : thread_context._runMicrotasks,",
   "    reg_constructor     : reg_constructor,",
   "  \x7d;",
   "",
   "  reg_constructor(_error_constructor, 'Error');",
   "",
   "",
   "return warp;",
   "",
   "  //",
   "  // 通过类型 id 来构建对象, fn 即对象构建器",
   "  // fn   : Function(data) 返回使用 data 创建的对象实例.",
   "  // name : 注册到 CONSTRUCTORS 变量中的名字.",
   "  //",
   "  function reg_constructor(fn, name) \x7b",
   "    var id = type_constructor.length;",
   "    type_constructor.push(fn);",
   "    if (!name) \x7b",
   "      name = fn.name;",
   "    \x7d",
   "    if (name) \x7b",
   "      if (warp.CONSTRUCTORS[name])",
   "        throw new Error('\"' + name + '\" is reged');",
   "",
   "      warp.CONSTRUCTORS[name] = id;",
   "    \x7d",
   "    return id;",
   "  \x7d",
   "",
   "",
   "  function noListener() \x7b",
   "    return event.listenerCount() <= 0;",
   "  \x7d",
   "",
   "",
   "  function _recv(json_str) \x7b",
   "    try \x7b",
   "      var obj  = JSON.parse(json_str);",
   "      var cons = type_constructor[obj.cid];",
   "      var data;",
   "      if (cons) \x7b",
   "        data = cons(obj.data);",
   "      \x7d else \x7b",
   "        data = obj.data;",
   "      \x7d",
   "      event.emit(obj.name, data);",
   "    \x7d catch(err) \x7b",
   "      warp.send('error', \x7b",
   "        name    : err.name,",
   "        message : err.message,",
   "        stack   : err.stack,",
   "      \x7d);",
   "    \x7d",
   "  \x7d",
   "",
   "",
   "  function on(name, cb) \x7b",
   "    event.on(name, cb);",
   "    return warp;",
   "  \x7d",
   "",
   "",
   "  function off(name, cb) \x7b",
   "    event.removeListener(name, cb);",
   "    return warp;",
   "  \x7d",
   "",
   "",
   "  function offall() \x7b",
   "    event.removeAllListeners();",
   "    return warp;",
   "  \x7d",
   "",
   "",
   "  function once(name, cb) \x7b",
   "    event.once(name, cb);",
   "    return warp;",
   "  \x7d",
   "",
   "",
   "  function send(name, data, constructor_id) \x7b",
   "    if (constructor_id) \x7b",
   "      if (constructor_id < 0 || constructor_id >= type_constructor.length)",
   "        throw new Error('bad constructor id ' + constructor_id);",
   "",
   "      if (warp.CONSTRUCTORS[constructor_id] >= 0) \x7b",
   "        constructor_id = warp.CONSTRUCTORS[constructor_id];",
   "      \x7d else \x7b",
   "        throw new Error('bad constructor id ' + constructor_id);",
   "      \x7d",
   "    \x7d",
   "    thread_context._send(JSON.stringify(\x7b",
   "      name : name,",
   "      data : data,",
   "      cid  : constructor_id,",
   "    \x7d));",
   "    return warp;",
   "  \x7d",
   "",
   "",
   "  function send_error(err) \x7b",
   "    send('error', \x7b",
   "      name    : err.name,",
   "      code    : err.code,",
   "      message : err.message,",
   "      stack   : err.stack,",
   "    \x7d, 'Error');",
   "    return warp;",
   "  \x7d",
   "",
   "",
   "  function emit(name, data) \x7b",
   "    event.emit.apply(event, arguments);",
   "    return warp;",
   "  \x7d",
   "",
   "",
   "  function wait(name, data) \x7b",
   "    var ret = thread_context._wait(JSON.stringify(\x7b",
   "      name : name || '_thread_locked',",
   "      data : data,",
   "    \x7d));",
   "    if (typeof ret == 'string') \x7b",
   "      ret = JSON.parse(ret);",
   "    \x7d",
   "    return ret;",
   "  \x7d",
   "",
   "",
   "  function eval(code, filename, offset, context) \x7b",
   "    return thread_context._eval(",
   "      filename || NO_NAME, code, offset || 0, context);",
   "  \x7d",
   "",
   "",
   "  function create_context() \x7b",
   "    return thread_context._create_context();",
   "  \x7d",
   "",
   "",
   "  function _error_constructor(d) \x7b",
   "    var ObjNew = this[d.name];",
   "    var r = new ObjNew(d.message);",
   "    r.stack = d.stack;",
   "    r.name  = d.name;",
   "    return r;",
   "  \x7d",
   "\x7d"]

/-- `events.js` -/
def events : List String :=
  ["",
   "if (exports) \x7b",
   "  module.exports = EventEmitter;",
   "\x7d",
   "",
   "//",
   "// 为子线程服务, 模拟一个 Event 库的实现",
   "//",
   "function EventEmitter() \x7b",
   "  this.event_handles = \x7b\x7d;",
   "  this.all_count     = 0;",
   "  this.event_count   = \x7b\x7d;",
   "\x7d",
   "",
   "",
   "EventEmitter.prototype = \x7b",
   "",
   "  on: function(name, cb, _remove) \x7b",
   "    var dat = \x7b",
   "      cb     : cb,",
   "      next   : null,",
   "      remove : _remove,",
   "    \x7d;",
   "    if (!this.event_handles[name]) \x7b",
   "      this.event_handles[name] = \x7b s: dat, e: dat \x7d;",
   "    \x7d else \x7b",
   "      if (this.event_handles[name].e) \x7b",
   "        this.event_handles[name].e.next = dat;",
   "        this.event_handles[name].e = dat;",
   "      \x7d else \x7b",
   "        this.event_handles[name].e = this.event_handles[name].s = dat;",
   "      \x7d",
   "    \x7d",
   "    this.all_count += 1;",
   "    if (isNaN(this.event_count[name])) \x7b",
   "      this.event_count[name] = 1;",
   "    \x7d else \x7b",
   "      this.event_count[name] += 1;",
   "    \x7d",
   "    return this;",
   "  \x7d,",
   "",
   "",
   "  once: function(name, cb) \x7b",
   "    return this.on(name, cb, true);",
   "  \x7d,",
   "",
   "",
   "  _iterator : function(name, cb) \x7b",
   "    var p, h = this.event_handles[name].s;",
   "    var rm, thiz = this;",
   "",
   "    while (h) \x7b",
   "      cb(h, p, _remove);",
   "      if (!rm) \x7b",
   "        p = h;",
   "      \x7d else \x7b",
   "        rm = false;",
   "      \x7d",
   "      h = h.next;",
   "    \x7d",
   "",
   "    function _remove(h, p) \x7b",
   "      if (h === thiz.event_handles[name].s) \x7b",
   "        thiz.event_handles[name].s = h.next;",
   "      \x7d",
   "      if (h === thiz.event_handles[name].e) \x7b",
   "        thiz.event_handles[name].e = p;",
   "      \x7d",
   "      if (p) \x7b",
   "        p.next == h.next;",
   "      \x7d",
   "      rm = true;",
   "",
   "      thiz.event_count[name] -= 1;",
   "      thiz.all_count -= 1;",
   "    \x7d",
   "  \x7d,",
   "",
   "",
   "  listenerCount: function(name) \x7b",
   "    if (!name) \x7b",
   "      return this.all_count;",
   "    \x7d",
   "    return this.event_count[name] || 0;",
   "  \x7d,",
   "",
   "",
   "  removeListener: function(name, cb) \x7b",
   "    if (!this.event_handles[name]) return;",
   "    if (cb) \x7b",
   "      this._iterator(name, function(h, p, _remove) \x7b",
   "        if (h.cb === cb) \x7b",
   "          _remove(h, p);",
   "        \x7d",
   "      \x7d);",
   "    \x7d else \x7b",
   "      this._iterator(name, function(h, p, _remove) \x7b",
   "        _remove(h, p);",
   "      \x7d);",
   "    \x7d",
   "    return this;",
   "  \x7d,",
   "",
   "",
   "  emit: function(name, data) \x7b",
   "    if (!this.event_handles[name]) return;",
   "    this._iterator(name, function(h, p, _remove) \x7b",
   "      if (h.remove) _remove(h);",
   "      h.cb(data);",
   "    \x7d);",
   "    return this;",
   "  \x7d,",
   "",
   "",
   "  removeAllListeners: function() \x7b",
   "    this.event_handles = \x7b\x7d;",
   "    this.all_count     = 0;",
   "    this.event_count   = \x7b\x7d;",
   "    return this;",
   "  \x7d,",
   "",
   "\x7d;"]

/-! The parts of `thread-warp.js` -/

/-- Before `${fnProxy}`. -/
def head : List String :=
  ["//  这是个脚本模板, 用户脚本将被包装, 以实现功能",
   "",
   "//",
   "// c++ export to use script",
   "//",
   "var thread;",
   "",
   "//",
   "// global.thread_context 是 c++ 导出的对象, 不可暴露给用户脚本",
   "// 2016 第一行代码, 函数返回后, 将导出库绑定在 thread 上",
   "// c++: do_script(void *arg) -> j_context",
   "//",
   "(function(global) \x7b",
   "",
   "//",
   "// exports 用来假装有这个变量, 但是始终为 null,",
   "// 以兼容 nodejs 的变量检测, 可以对命名进行覆盖",
   "//",
   "var exports;",
   "",
   "//",
   "// 模板变量将被替换",
   "// wrap_context",
   "// EventEmitter",
   "// __createFunctionProxy",
   "//"]

/-- Between `${events}` and `${LIB_SCRIPT}`. -/
def middle : List String :=
  ["",
   "var event = new EventEmitter();",
   "var thread_context = global.thread_context;",
   "",
   "//",
   "// thread_context 包装为 thread 导出给用户脚本",
   "//",
   "thread = wrap_context(thread_context, event);",
   "",
   "//",
   "// 删除 thread_context 之后 global 即全局变量是安全的可以给用户使用",
   "//",
   "delete global.thread_context;",
   "global.EventEmitter = EventEmitter;",
   "",
   "//",
   "// __createFunctionProxy([main function name], [args len], [has call back])",
   "//"]

/-- Between `${LIB_SCRIPT}` and the line of the marker. The first line is the rest of the
placeholder's own. -/
def beforeMarker : List String :=
  ["",
   "",
   "\x7d)(this);",
   "",
   "",
   "// User Script is warp in `Function`",
   "try \x7b",
   "  (function(thread, console) \x7b",
   "    //",
   "    // 用户代码在这里可以安全引用所有的变量",
   "    //",
   "    // 下一行注释作为用户代码标志不可以移除, 且必须只能出现一次",
   "    // 脚本一旦出错会打印堆栈, 其中标明出错行时将使用这个偏移,",
   "    // 不可以间隔空行."]

/-- Behind `${USE_SCRIPT}`, which is in a line of its own. -/
def foot : List String :=
  ["",
   "",
   "  \x7d).call(this, thread, thread.console)",
   "\x7d catch(e) \x7b",
   "  // JSON 没法正确序列化 Error 对象",
   "  thread.send('error', \x7b",
   "    name    : e.name,",
   "    stack   : e.stack,",
   "    message : e.message,",
   "  \x7d);",
   "\x7d"]

end Files

/-! ### What the lines have in common -/

/-- `USE_JS_CODE_OFF_STR`, by the codes of its characters. -/
def marker : List Nat := "USER_SCRIPT_BEGIN".toList.map Char.toNat

def markerUnits : Text := marker.map UInt16.ofNat

/-- No line terminator, no NUL, no `$` and not the marker. -/
def plainUnits (us : Text) : Bool :=
  us.all (fun u => !Js.Source.isLineTerminator u && u != 0 && u != dollar) &&
    (CString.strstr markerUnits (us ++ [0x0A])).isNone

def PlainLines (lines : List String) : Prop := ∀ l ∈ lines, plainUnits (units l) = true

/-- Lines and their characters. For literals this is seen without decoding their bytes. -/
inductive OfChars : List String → List (List Char) → Prop where
  | nil : OfChars [] []
  | cons {cs ls css} (rest : OfChars ls css) : OfChars (String.ofList cs :: ls) (cs :: css)
  | append {ls css ls' css'} (left : OfChars ls css) (right : OfChars ls' css') :
      OfChars (ls ++ ls') (css ++ css')

theorem OfChars.plain {ls : List String} {css : List (List Char)} (h : OfChars ls css)
    (plain : css.all (fun cs => plainUnits (cs.map fun c => UInt16.ofNat c.toNat)) = true) :
    PlainLines ls := by
  induction h with
  | nil => exact fun l hl => absurd hl List.not_mem_nil
  | cons rest ih =>
      rw [List.all_cons, Bool.and_eq_true] at plain
      intro l hl
      rcases List.mem_cons.mp hl with rfl | hl
      · rw [units, String.toList_ofList]
        exact plain.1
      · exact ih plain.2 l hl
  | append left right ihl ihr =>
      rw [List.all_append, Bool.and_eq_true] at plain
      intro l hl
      rcases List.mem_append.mp hl with hl | hl
      · exact ihl plain.1 l hl
      · exact ihr plain.2 l hl

theorem plain_files : PlainLines (Files.fnProxy ++ (Files.context ++ (Files.events ++
    (Files.head ++ (Files.middle ++ (Files.beforeMarker ++ Files.foot)))))) := by
  obtain ⟨css, ofChars, plain⟩ : ∃ css, OfChars (Files.fnProxy ++ (Files.context ++
      (Files.events ++ (Files.head ++ (Files.middle ++ (Files.beforeMarker ++ Files.foot)))))) css ∧
      css.all (fun cs => plainUnits (cs.map fun c => UInt16.ofNat c.toNat)) = true := by
    apply Exists.intro
    apply And.intro
    · unfold Files.fnProxy Files.context Files.events Files.head Files.middle Files.beforeMarker
        Files.foot
      dsimp only
      repeat' first
        | apply OfChars.append
        | apply OfChars.cons
        | exact .nil
    · decide +kernel
  exact ofChars.plain plain

end ThreadJs.Warp
