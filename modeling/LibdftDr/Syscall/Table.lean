import LibdftDr.Syscall.Descriptors

/-!
# The descriptor table

`syscall_desc`, row by row. `syscallDesc_ok` checks it: a system call that writes through its
arguments or has a hook is not filtered out, and no row maps an argument that is not saved or has
a hook that reads one.
-/
namespace LibdftDr

/-- The hooks that the table names. -/
inductive SyscallHook where
  | postRead | postOpen | postOpenat | postDup3 | postDup2 | postDup | postClose | postPread64
  | postMmap | postMunmap
  deriving DecidableEq

/-- The arguments up to the last one that the hook reads. -/
def SyscallHook.argsRead : SyscallHook → ℕ
  | .postOpen | .postOpenat => 0
  | .postDup | .postClose => 1
  | .postRead | .postDup3 | .postDup2 | .postMunmap => 2
  | .postPread64 => 4
  | .postMmap => 6

/-- `syscall_desc`, by the numbers of the calls. -/
def syscallDesc : List (SyscallRow SyscallHook) := [
  -- 0: read, write, open, close, stat, fstat, lstat, poll
  ⟨3, 1, 1, maps [], none, some .postRead⟩,
  ⟨3, 0, 0, maps [], none, none⟩,
  ⟨3, 1, 0, maps [], none, some .postOpen⟩,
  ⟨1, 1, 0, maps [], none, some .postClose⟩,
  ⟨2, 0, 1, maps [none, some .stat], none, none⟩,
  ⟨2, 1, 1, maps [none, some .stat], none, none⟩,
  ⟨2, 0, 1, maps [none, some .stat], none, none⟩,
  ⟨3, 1, 1, maps [some .pollfd], none, none⟩,
  -- 8: lseek, mmap, mprotect, munmap, brk, rt_sigaction, rt_sigprocmask, rt_sigreturn
  ⟨3, 0, 0, maps [], none, none⟩,
  ⟨6, 1, 0, maps [], none, some .postMmap⟩,
  ⟨3, 0, 0, maps [], none, none⟩,
  ⟨2, 1, 0, maps [], none, some .postMunmap⟩,
  ⟨1, 1, 0, maps [], none, none⟩,
  ⟨3, 0, 1, maps [none, none, some .sigaction], none, none⟩,
  ⟨4, 0, 1, maps [none, some .sigsetT, some .sigsetT], none, none⟩,
  ⟨1, 0, 0, maps [], none, none⟩,
  -- 16: ioctl, pread64, pwrite64, readv, writev, access, pipe, select
  ⟨3, 1, 0, maps [], none, none⟩,
  ⟨4, 1, 1, maps [], none, some .postPread64⟩,
  ⟨4, 0, 0, maps [], none, none⟩,
  ⟨3, 1, 0, maps [], none, none⟩,
  ⟨3, 0, 0, maps [], none, none⟩,
  ⟨2, 0, 0, maps [], none, none⟩,
  ⟨1, 0, 1, maps [some .int], none, none⟩,
  ⟨5, 0, 1, maps [none, some .fdSet, some .fdSet, some .fdSet, some .timeval], none, none⟩,
  -- 24: sched_yield, mremap, msync, mincore, madvise, shmget, shmat, shmctl
  ⟨0, 0, 0, maps [], none, none⟩,
  ⟨5, 0, 0, maps [], none, none⟩,
  ⟨3, 0, 0, maps [], none, none⟩,
  ⟨3, 1, 1, maps [none, none, some .unsignedChar], none, none⟩,
  ⟨3, 0, 0, maps [], none, none⟩,
  ⟨3, 0, 0, maps [], none, none⟩,
  ⟨3, 0, 1, maps [], none, none⟩,
  ⟨3, 0, 1, maps [none, none, some .shmidDs], none, none⟩,
  -- 32: dup, dup2, pause, nanosleep, getitimer, alarm, setitimer, getpid
  ⟨1, 1, 0, maps [], none, some .postDup⟩,
  ⟨2, 1, 0, maps [], none, some .postDup2⟩,
  ⟨0, 0, 0, maps [], none, none⟩,
  ⟨2, 0, 1, maps [some .timespec, some .timespec], none, none⟩,
  ⟨2, 0, 1, maps [none, some .itimerval], none, none⟩,
  ⟨1, 0, 0, maps [], none, none⟩,
  ⟨3, 0, 1, maps [none, some .itimerval, some .itimerval], none, none⟩,
  ⟨0, 0, 0, maps [], none, none⟩,
  -- 40: sendfile, socket, connect, accept, sendto, recvfrom, sendmsg, recvmsg
  ⟨4, 0, 1, maps [none, none, some .offT], none, none⟩,
  ⟨3, 0, 0, maps [], none, none⟩,
  ⟨3, 0, 1, maps [none, some .sockaddr], none, none⟩,
  ⟨3, 0, 1, maps [none, some .sockaddr, some .int], none, none⟩,
  ⟨6, 0, 1, maps [none, none, none, none, some .sockaddr], none, none⟩,
  ⟨6, 0, 1, maps [none, none, none, none, some .sockaddr, some .int], none, none⟩,
  ⟨3, 0, 1, maps [none, some .msghdr], none, none⟩,
  ⟨3, 0, 1, maps [none, some .msghdr], none, none⟩,
  -- 48: shutdown, bind, listen, getsockname, getpeername, socketpair, setsockopt, getsockopt
  ⟨2, 0, 0, maps [], none, none⟩,
  ⟨3, 0, 1, maps [none, some .sockaddr], none, none⟩,
  ⟨2, 0, 0, maps [], none, none⟩,
  ⟨3, 0, 1, maps [none, some .sockaddr, some .int], none, none⟩,
  ⟨3, 0, 1, maps [none, some .sockaddr, some .int], none, none⟩,
  ⟨4, 0, 1, maps [none, none, none, some .int], none, none⟩,
  ⟨5, 0, 1, maps [], none, none⟩,
  ⟨5, 0, 1, maps [none, none, none, none, some .int], none, none⟩,
  -- 56: clone, fork, vfork, execve, exit, wait4, kill, uname
  ⟨4, 0, 1, maps [], none, none⟩,
  ⟨0, 0, 0, maps [], none, none⟩,
  ⟨0, 0, 0, maps [], none, none⟩,
  ⟨3, 0, 0, maps [], none, none⟩,
  ⟨1, 0, 0, maps [], none, none⟩,
  ⟨4, 0, 1, maps [none, some .int, none, some .rusage], none, none⟩,
  ⟨2, 0, 0, maps [], none, none⟩,
  ⟨1, 0, 1, maps [some .utsname], none, none⟩,
  -- 64: semget, semop, semctl, shmdt, msgget, msgsnd, msgrcv, msgctl
  ⟨3, 0, 0, maps [], none, none⟩,
  ⟨3, 0, 1, maps [none, some .sembuf], none, none⟩,
  ⟨4, 0, 0, maps [], none, none⟩,
  ⟨1, 0, 1, maps [], none, none⟩,
  ⟨2, 0, 0, maps [], none, none⟩,
  ⟨4, 0, 1, maps [none, some .msgbuf], none, none⟩,
  ⟨5, 0, 1, maps [none, some .msgbuf], none, none⟩,
  ⟨3, 0, 1, maps [none, none, some .msqidDs], none, none⟩,
  -- 72: fcntl, flock, fsync, fdatasync, truncate, ftruncate, getdents, getcwd
  ⟨3, 1, 0, maps [], none, none⟩,
  ⟨2, 0, 0, maps [], none, none⟩,
  ⟨1, 0, 0, maps [], none, none⟩,
  ⟨1, 0, 0, maps [], none, none⟩,
  ⟨2, 0, 0, maps [], none, none⟩,
  ⟨2, 0, 0, maps [], none, none⟩,
  ⟨3, 0, 1, maps [none, some .linuxDirent], none, none⟩,
  ⟨2, 1, 1, maps [], none, none⟩,
  -- 80: chdir, fchdir, rename, mkdir, rmdir, creat, link, unlink
  ⟨1, 0, 0, maps [], none, none⟩,
  ⟨1, 0, 0, maps [], none, none⟩,
  ⟨2, 0, 0, maps [], none, none⟩,
  ⟨2, 0, 0, maps [], none, none⟩,
  ⟨1, 0, 0, maps [], none, none⟩,
  ⟨2, 0, 0, maps [], none, none⟩,
  ⟨2, 0, 0, maps [], none, none⟩,
  ⟨1, 0, 0, maps [], none, none⟩,
  -- 88: symlink, readlink, chmod, fchmod, chown, fchown, lchown, umask
  ⟨2, 0, 0, maps [], none, none⟩,
  ⟨3, 0, 1, maps [], none, none⟩,
  ⟨2, 0, 0, maps [], none, none⟩,
  ⟨2, 0, 0, maps [], none, none⟩,
  ⟨3, 0, 0, maps [], none, none⟩,
  ⟨3, 0, 0, maps [], none, none⟩,
  ⟨3, 0, 0, maps [], none, none⟩,
  ⟨1, 0, 0, maps [], none, none⟩,
  -- 96: gettimeofday, getrlimit, getrusage, sysinfo, times, ptrace, getuid, syslog
  ⟨2, 0, 1, maps [some .timeval, some .timezone], none, none⟩,
  ⟨2, 0, 1, maps [none, some .rlimit], none, none⟩,
  ⟨2, 0, 1, maps [none, some .rusage], none, none⟩,
  ⟨1, 0, 1, maps [some .sysinfo], none, none⟩,
  ⟨1, 0, 1, maps [some .sysinfo], none, none⟩,
  ⟨4, 0, 0, maps [], none, none⟩,
  ⟨0, 0, 0, maps [], none, none⟩,
  ⟨3, 1, 1, maps [], none, none⟩,
  -- 104: getgid, setuid, setgid, geteuid, getegid, setpgid, getppid, getpgrp
  ⟨0, 0, 0, maps [], none, none⟩,
  ⟨1, 0, 0, maps [], none, none⟩,
  ⟨1, 0, 0, maps [], none, none⟩,
  ⟨0, 0, 0, maps [], none, none⟩,
  ⟨0, 0, 0, maps [], none, none⟩,
  ⟨2, 0, 0, maps [], none, none⟩,
  ⟨0, 0, 0, maps [], none, none⟩,
  ⟨0, 0, 0, maps [], none, none⟩,
  -- 112: setsid, setreuid, setregid, getgroups, setgroups, setresuid, getresuid, setresgid
  ⟨0, 0, 0, maps [], none, none⟩,
  ⟨2, 0, 0, maps [], none, none⟩,
  ⟨2, 0, 0, maps [], none, none⟩,
  ⟨2, 1, 1, maps [none, some .gidT], none, none⟩,
  ⟨2, 0, 1, maps [none, some .gidT], none, none⟩,
  ⟨3, 0, 1, maps [some .uidT, some .uidT, some .uidT], none, none⟩,
  ⟨3, 0, 1, maps [some .uidT, some .uidT, some .uidT], none, none⟩,
  ⟨3, 0, 0, maps [], none, none⟩,
  -- 120: getresgid, getpgid, setfsuid, setfsgid, getsid, capget, capset, rt_sigpending
  ⟨3, 0, 1, maps [some .gitT, some .gitT, some .gitT], none, none⟩,
  ⟨1, 0, 0, maps [], none, none⟩,
  ⟨1, 0, 0, maps [], none, none⟩,
  ⟨1, 0, 0, maps [], none, none⟩,
  ⟨1, 0, 0, maps [], none, none⟩,
  ⟨2, 0, 0, maps [], none, none⟩,
  ⟨2, 0, 0, maps [], none, none⟩,
  ⟨2, 1, 1, maps [some .sigsetT], none, none⟩,
  -- 128: rt_sigtimedwait, rt_sigqueueinfo, rt_sigsuspend, sigaltstack, utime, mknod, uselib
  ⟨4, 0, 1, maps [none, some .siginfoT], none, none⟩,
  ⟨3, 0, 1, maps [none, none, some .siginfoT], none, none⟩,
  ⟨2, 0, 1, maps [some .sigsetT], none, none⟩,
  ⟨2, 0, 1, maps [none, some .stackT], none, none⟩,
  ⟨2, 0, 0, maps [], none, none⟩,
  ⟨3, 0, 0, maps [], none, none⟩,
  ⟨1, 0, 0, maps [], none, none⟩,
  -- 135: personality, ustat, statfs, fstatfs, sysfs, getpriority, setpriority, sched_setparam
  ⟨1, 0, 0, maps [], none, none⟩,
  ⟨2, 0, 1, maps [none, some .ustat], none, none⟩,
  ⟨2, 0, 1, maps [none, some .statfs], none, none⟩,
  ⟨2, 0, 1, maps [none, some .statfs], none, none⟩,
  ⟨3, 0, 0, maps [], none, none⟩,
  ⟨2, 0, 0, maps [], none, none⟩,
  ⟨3, 0, 0, maps [], none, none⟩,
  ⟨2, 0, 1, maps [none, some .schedParam], none, none⟩,
  -- 143: sched_getparam, sched_setscheduler, sched_getscheduler, sched_get_priority_max
  ⟨2, 0, 1, maps [none, some .schedParam], none, none⟩,
  ⟨3, 0, 1, maps [none, none, some .schedParam], none, none⟩,
  ⟨1, 0, 0, maps [], none, none⟩,
  ⟨1, 0, 0, maps [], none, none⟩,
  -- 147: sched_get_priority_min, sched_rr_get_interval, mlock, munlock, mlockall, munlockall
  ⟨1, 0, 0, maps [], none, none⟩,
  ⟨2, 0, 1, maps [none, some .timespec], none, none⟩,
  ⟨2, 0, 0, maps [], none, none⟩,
  ⟨2, 0, 0, maps [], none, none⟩,
  ⟨1, 0, 0, maps [], none, none⟩,
  ⟨0, 0, 0, maps [], none, none⟩,
  -- 153: vhangup, modify_ldt, pivot_root, _sysctl, prctl, arch_prctl, adjtimex, setrlimit
  ⟨0, 0, 0, maps [], none, none⟩,
  ⟨3, 0, 1, maps [], none, none⟩,
  ⟨2, 0, 0, maps [], none, none⟩,
  ⟨1, 1, 1, maps [some .sysctlArgs], none, none⟩,
  ⟨5, 0, 0, maps [], none, none⟩,
  ⟨2, 0, 1, maps [], none, none⟩,
  ⟨1, 0, 1, maps [some .timex], none, none⟩,
  ⟨2, 0, 1, maps [none, some .rlimit], none, none⟩,
  -- 161: chroot, sync, acct, settimeofday, mount, umount2, swapon, swapoff
  ⟨1, 0, 0, maps [], none, none⟩,
  ⟨0, 0, 0, maps [], none, none⟩,
  ⟨1, 0, 0, maps [], none, none⟩,
  ⟨2, 0, 1, maps [some .timeval, some .timezone], none, none⟩,
  ⟨5, 0, 1, maps [], none, none⟩,
  ⟨2, 0, 0, maps [], none, none⟩,
  ⟨2, 0, 0, maps [], none, none⟩,
  ⟨1, 0, 0, maps [], none, none⟩,
  -- 169: reboot, sethostname, setdomainname, iopl, ioperm, create_module, init_module
  ⟨4, 0, 1, maps [], none, none⟩,
  ⟨2, 0, 1, maps [], none, none⟩,
  ⟨2, 0, 1, maps [], none, none⟩,
  ⟨1, 0, 1, maps [], none, none⟩,
  ⟨3, 0, 0, maps [], none, none⟩,
  ⟨1, 0, 0, maps [], none, none⟩,
  ⟨3, 0, 1, maps [], none, none⟩,
  -- 176: delete_module, get_kernel_syms, query_module, quotactl, nfsservctl, getpmsg, putpmsg
  ⟨2, 0, 0, maps [], none, none⟩,
  ⟨1, 0, 0, maps [], none, none⟩,
  ⟨1, 0, 0, maps [], none, none⟩,
  ⟨4, 1, 1, maps [], none, none⟩,
  ⟨1, 0, 0, maps [], none, none⟩,
  ⟨1, 0, 0, maps [], none, none⟩,
  ⟨1, 0, 0, maps [], none, none⟩,
  -- 183: afs_syscall, tuxcall, security, gettid, readahead, setxattr, lsetxattr, fsetxattr
  ⟨1, 0, 0, maps [], none, none⟩,
  ⟨1, 0, 0, maps [], none, none⟩,
  ⟨1, 0, 0, maps [], none, none⟩,
  ⟨0, 0, 0, maps [], none, none⟩,
  ⟨3, 0, 0, maps [], none, none⟩,
  ⟨5, 0, 0, maps [], none, none⟩,
  ⟨5, 0, 0, maps [], none, none⟩,
  ⟨5, 0, 0, maps [], none, none⟩,
  -- 191: getxattr, lgetxattr, fgetxattr, listxattr, llistxattr, flistxattr, removexattr
  ⟨4, 1, 1, maps [], none, none⟩,
  ⟨4, 0, 1, maps [], none, none⟩,
  ⟨4, 0, 1, maps [], none, none⟩,
  ⟨3, 1, 1, maps [], none, none⟩,
  ⟨3, 0, 1, maps [], none, none⟩,
  ⟨3, 0, 1, maps [], none, none⟩,
  ⟨2, 0, 0, maps [], none, none⟩,
  -- 198: lremovexattr, fremovexattr, tkill, time, futex, sched_setaffinity, sched_getaffinity
  ⟨2, 0, 0, maps [], none, none⟩,
  ⟨2, 0, 0, maps [], none, none⟩,
  ⟨2, 0, 0, maps [], none, none⟩,
  ⟨1, 0, 1, maps [some .timeT], none, none⟩,
  ⟨6, 0, 1, maps [some .u32, none, none, some .timespec, some .u32], none, none⟩,
  ⟨3, 0, 1, maps [none, none, some .unsignedLong], none, none⟩,
  ⟨3, 0, 1, maps [none, none, some .unsignedLong], none, none⟩,
  -- 205: set_thread_area, io_setup, io_destroy, io_getevents, io_submit, io_cancel
  ⟨1, 0, 0, maps [], none, none⟩,
  ⟨2, 0, 1, maps [none, some .aioContextT], none, none⟩,
  ⟨1, 0, 0, maps [], none, none⟩,
  ⟨4, 1, 1, maps [none, none, none, some .ioEvent], none, none⟩,
  ⟨3, 0, 1, maps [none, none, some .iocb], none, none⟩,
  ⟨3, 0, 1, maps [none, some .iocb, some .ioEvent], none, none⟩,
  -- 211: get_thread_area, lookup_dcookie, epoll_create, epoll_ctl_old, epoll_wait_old
  ⟨1, 0, 0, maps [], none, none⟩,
  ⟨3, 1, 0, maps [], none, none⟩,
  ⟨1, 0, 0, maps [], none, none⟩,
  ⟨1, 0, 0, maps [], none, none⟩,
  ⟨1, 0, 0, maps [], none, none⟩,
  -- 216: remap_file_pages, getdents64, set_tid_address, restart_syscall, semtimedop, fadvise64
  ⟨5, 0, 0, maps [], none, none⟩,
  ⟨3, 1, 1, maps [none, some .linuxDirent], none, none⟩,
  ⟨1, 0, 1, maps [some .int], none, none⟩,
  ⟨0, 0, 0, maps [], none, none⟩,
  ⟨4, 0, 1, maps [none, some .sembuf], none, none⟩,
  ⟨4, 0, 0, maps [], none, none⟩,
  -- 222: timer_create, timer_settime, timer_gettime, timer_getoverrun, timer_delete
  ⟨3, 0, 1, maps [none, some .sigevent, some .timerT], none, none⟩,
  ⟨4, 0, 1, maps [none, none, none, some .itimerspec], none, none⟩,
  ⟨2, 0, 1, maps [none, some .itimerspec], none, none⟩,
  ⟨1, 0, 0, maps [], none, none⟩,
  ⟨1, 0, 0, maps [], none, none⟩,
  -- 227: clock_settime, clock_gettime, clock_getres, clock_nanosleep, exit_group, epoll_wait
  ⟨2, 0, 0, maps [], none, none⟩,
  ⟨2, 0, 1, maps [none, some .timespec], none, none⟩,
  ⟨2, 0, 1, maps [none, some .timespec], none, none⟩,
  ⟨4, 0, 1, maps [none, none, none, some .timespec], none, none⟩,
  ⟨1, 0, 0, maps [], none, none⟩,
  ⟨4, 1, 1, maps [none, some .epollEvent], none, none⟩,
  -- 233: epoll_ctl, tgkill, utimes, vserver, mbind, set_mempolicy, get_mempolicy, mq_open
  ⟨4, 0, 1, maps [none, none, none, some .epollEvent], none, none⟩,
  ⟨3, 0, 0, maps [], none, none⟩,
  ⟨2, 0, 1, maps [none, some .timeval], none, none⟩,
  ⟨1, 0, 0, maps [], none, none⟩,
  ⟨6, 0, 1, maps [none, none, none, some .unsignedLong], none, none⟩,
  ⟨3, 0, 1, maps [none, some .unsignedLong], none, none⟩,
  ⟨5, 1, 1, maps [some .int, some .unsignedLong], none, none⟩,
  ⟨4, 0, 1, maps [none, none, none, some .mqAttr], none, none⟩,
  -- 241: mq_unlink, mq_timedsend, mq_timedreceive, mq_notify, mq_getsetattr, kexec_load, waitid
  ⟨1, 0, 0, maps [], none, none⟩,
  ⟨5, 0, 0, maps [], none, none⟩,
  ⟨5, 1, 1, maps [none, none, none, some .unsignedInt], none, none⟩,
  ⟨2, 0, 0, maps [], none, none⟩,
  ⟨3, 0, 1, maps [none, none, some .mqAttr], none, none⟩,
  ⟨4, 0, 1, maps [none, none, some .kexecSegment], none, none⟩,
  ⟨5, 0, 1, maps [none, none, some .siginfoT, none, some .rusage], none, none⟩,
  -- 248: add_key, request_key, keyctl, ioprio_set, ioprio_get, inotify_init, inotify_add_watch
  ⟨4, 0, 0, maps [], none, none⟩,
  ⟨4, 0, 0, maps [], none, none⟩,
  ⟨5, 0, 0, maps [], none, none⟩,
  ⟨3, 0, 0, maps [], none, none⟩,
  ⟨2, 0, 0, maps [], none, none⟩,
  ⟨0, 0, 0, maps [], none, none⟩,
  ⟨3, 0, 0, maps [], none, none⟩,
  -- 255: inotify_rm_watch, migrate_pages, openat, mkdirat, mknodat, fchownat, futimesat
  ⟨2, 0, 0, maps [], none, none⟩,
  ⟨4, 0, 0, maps [], none, none⟩,
  ⟨4, 1, 0, maps [], none, some .postOpenat⟩,
  ⟨3, 0, 0, maps [], none, none⟩,
  ⟨4, 0, 0, maps [], none, none⟩,
  ⟨5, 0, 0, maps [], none, none⟩,
  ⟨3, 0, 1, maps [none, none, some .timeval], none, none⟩,
  -- 262: newfstatat, unlinkat, renameat, linkat, symlinkat, readlinkat, fchmodat, faccessat
  ⟨4, 0, 1, maps [none, none, some .stat], none, none⟩,
  ⟨3, 0, 0, maps [], none, none⟩,
  ⟨4, 0, 0, maps [], none, none⟩,
  ⟨5, 0, 0, maps [], none, none⟩,
  ⟨3, 0, 0, maps [], none, none⟩,
  ⟨4, 1, 1, maps [], none, none⟩,
  ⟨3, 0, 0, maps [], none, none⟩,
  ⟨3, 0, 0, maps [], none, none⟩,
  -- 270: pselect6, ppoll, unshare, set_robust_list, get_robust_list, splice, tee, sync_file_range
  ⟨6, 0, 1, maps [none, some .fdSet, some .fdSet, some .fdSet, some .timespec], none, none⟩,
  ⟨5, 0, 1, maps [some .pollfd, none, some .timespec], none, none⟩,
  ⟨1, 0, 0, maps [], none, none⟩,
  ⟨2, 0, 1, maps [some .robustListHead], none, none⟩,
  ⟨3, 0, 1, maps [none, some .robustListHead, some .sizeT], none, none⟩,
  ⟨6, 0, 1, maps [none, some .loffT, none, some .loffT], none, none⟩,
  ⟨4, 0, 0, maps [], none, none⟩,
  ⟨4, 0, 0, maps [], none, none⟩,
  -- 278: vmsplice, move_pages, utimensat, epoll_pwait, signalfd, timerfd_create, eventfd
  ⟨4, 0, 0, maps [], none, none⟩,
  ⟨6, 0, 1, maps [none, none, none, none, some .int], none, none⟩,
  ⟨4, 0, 1, maps [none, none, some .timespec], none, none⟩,
  ⟨6, 0, 1, maps [none, some .epollEvent], none, none⟩,
  ⟨3, 0, 1, maps [none, some .sigsetT], none, none⟩,
  ⟨2, 0, 0, maps [], none, none⟩,
  ⟨1, 0, 0, maps [], none, none⟩,
  -- 285: fallocate, timerfd_settime, timerfd_gettime, accept4, signalfd4, eventfd2, epoll_create1
  ⟨4, 0, 0, maps [], none, none⟩,
  ⟨4, 0, 1, maps [none, none, none, some .itimerspec], none, none⟩,
  ⟨2, 0, 1, maps [none, some .itimerspec], none, none⟩,
  ⟨4, 0, 1, maps [none, some .sockaddr, some .int], none, none⟩,
  ⟨4, 0, 1, maps [none, some .sigsetT], none, none⟩,
  ⟨2, 0, 0, maps [], none, none⟩,
  ⟨1, 0, 0, maps [], none, none⟩,
  -- 292: dup3, pipe2, inotify_init1, preadv, pwritev, rt_tgsigqueueinfo, perf_event_open
  ⟨3, 1, 0, maps [], none, some .postDup3⟩,
  ⟨2, 0, 1, maps [some .int], none, none⟩,
  ⟨1, 0, 0, maps [], none, none⟩,
  ⟨5, 0, 0, maps [], none, none⟩,
  ⟨5, 0, 0, maps [], none, none⟩,
  ⟨4, 0, 1, maps [none, none, none, some .siginfoT], none, none⟩,
  ⟨5, 0, 1, maps [some .perfEventAttr], none, none⟩,
  -- 299: recvmmsg, fanotify_init, fanotify_mark, prlimit64, name_to_handle_at, open_by_handle_at
  ⟨5, 0, 1, maps [none, some .msghdr, none, none, some .timespec], none, none⟩,
  ⟨2, 0, 0, maps [], none, none⟩,
  ⟨5, 0, 0, maps [], none, none⟩,
  ⟨4, 0, 1, maps [none, none, none, some .rlimit], none, none⟩,
  ⟨5, 0, 1, maps [none, none, some .fileHandle, some .int], none, none⟩,
  ⟨5, 0, 1, maps [none, none, some .fileHandle, some .int], none, none⟩,
  -- 305: clock_adjtime, syncfs, sendmmsg, setns, getcpu, process_vm_readv, process_vm_writev
  ⟨2, 0, 1, maps [none, some .timex], none, none⟩,
  ⟨1, 0, 0, maps [], none, none⟩,
  ⟨4, 0, 1, maps [none, some .mmsghdr], none, none⟩,
  ⟨2, 0, 0, maps [], none, none⟩,
  ⟨3, 0, 1, maps [some .unsigned, some .unsigned, some .getcpuCache], none, none⟩,
  ⟨6, 0, 0, maps [], none, none⟩,
  ⟨6, 0, 0, maps [], none, none⟩,
  -- 312: kcmp, finit_module, sched_setattr, sched_getattr
  ⟨5, 0, 0, maps [], none, none⟩,
  ⟨3, 0, 0, maps [], none, none⟩,
  ⟨3, 0, 1, maps [none, some .schedAttr], none, none⟩,
  ⟨4, 0, 1, maps [none, some .schedAttr], none, none⟩]

/-- The number of the last row and one. -/
def SYSCALL_MAX : ℕ := 316

theorem length_syscallDesc : syscallDesc.length = SYSCALL_MAX := by decide +kernel

theorem syscallDesc_ok : ∀ d ∈ syscallDesc, d.Ok SyscallHook.argsRead := by decide +kernel

end LibdftDr
